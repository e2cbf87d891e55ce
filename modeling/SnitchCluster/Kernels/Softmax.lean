/-
# Kernels.Softmax -- the rows of a map, normalised

`softmax_layer` loads the input map into the TCDM of every cluster, lets the compute cores normalise
the rows and stores the output map.  Both transfers copy `batch_size` elements for each of
`seq_len * input_samples * sizeof(float)` repetitions; `seq_len * input_samples` of them make the
whole map.  With any element at all they go beyond the maps (`load_beyond`), and the layer is right
exactly when there is none (`softmax_layer_normalises_iff`).  A float is an element of the field,
minus infinity being `⊥`.
-/
import SnitchCluster.Kernels.BlasVariants
import SnitchCluster.Kernels.FlashAttention

namespace SnitchCluster.Kernels.Softmax

open Blas Theory Theory.Loops Theory.Supersteps

/-! ## The code -/

section Code

inductive SoftmaxArray
  | ifmap
  | ofmap
  deriving DecidableEq

/-- The maps in external memory, and the TCDM of a cluster from `snrt_l1_next()` on. -/
abbrev Mem := Word SoftmaxArray Unit

def l1 (cluster_id e : Nat) : Mem := .loc () cluster_id e

/-- `softmax_layer_t`, as far as the layer depends on it. -/
structure SoftmaxLayer where
  batch_size : Nat
  seq_len : Nat
  input_samples : Nat

def sizeof_float : Nat := 4

variable {F : Type} [Field F] [LinearOrder F] (exp : F → F)

abbrev FloatStep (F : Type) := Step SoftmaxArray Unit (WithBot F)

/-- A new maximum. -/
def maxStep (max x : Mem) : FloatStep F :=
  .assign max x max max fun v max _ => if max < v then v else max

/-- `output = expf(input - max)` -/
def shifted (output input max : Mem) : FloatStep F :=
  .assign output input max max fun v max _ => ((expf exp (minus v max) : F) : WithBot F)

/-- `sum += output` -/
def accumulate (sum output : Mem) : FloatStep F :=
  .assign sum sum output output fun v w _ => v + w

/-- `output /= sum` -/
def divide (output sum : Mem) : FloatStep F :=
  .assign output output sum sum fun v w _ => WithBot.map₂ (· / ·) v w

/-- The registers of a core. -/
def max_core (compute_id : Nat) : Mem := .own compute_id 0

def sum (compute_id : Nat) : Mem := .own compute_id 1

/-- A row. -/
def softmax_row (compute_id : Nat) (input output : Nat → Mem) (input_samples : Nat) :
    List (FloatStep F) :=
  [put (max_core compute_id) ⊥, put (sum compute_id) ((0 : F) : WithBot F)] ++
    (List.range input_samples).map (fun i => maxStep (max_core compute_id) (input i)) ++
    ((List.range input_samples).flatMap fun i =>
      [shifted exp (output i) (input i) (max_core compute_id),
        accumulate (sum compute_id) (output i)]) ++
    (List.range input_samples).map fun i => divide (output i) (sum compute_id)

def softmax_fp32 (compute_id : Nat) (input output : Nat → Mem)
    (ldI batch_offset batch_size seq_len input_samples : Nat) : List (FloatStep F) :=
  (List.range batch_size).flatMap fun b => (List.range seq_len).flatMap fun s =>
    softmax_row exp compute_id (fun i => input (b * batch_offset + s * ldI + i))
      (fun i => output (b * batch_offset + s * ldI + i)) input_samples

namespace SoftmaxLayer

variable (l : SoftmaxLayer)

/-- `ifmap_size` and `ofmap_size`. -/
def ifmap_size : Nat := l.batch_size * l.seq_len * l.input_samples

/-- `ofmap` in the TCDM, behind `ifmap`. -/
def ofmap (cluster_id e : Nat) : Mem := l1 cluster_id (l.ifmap_size + e)

/-- What stands between the barriers. -/
inductive Phase
  | load
  | compute
  | store
  deriving DecidableEq

def dm_core (cluster_id : Nat) : Phase → List (FloatStep F)
  | .load => snrt_dma_start_2d (l1 cluster_id) (.ext .ifmap) l.batch_size l.batch_size
      l.batch_size (l.seq_len * l.input_samples * sizeof_float)
  | .store => snrt_dma_start_2d (.ext .ofmap) (l.ofmap cluster_id) l.batch_size l.batch_size
      l.batch_size (l.seq_len * l.input_samples * sizeof_float)
  | .compute => []

/-- A compute core; `compute_id` is its index among all cores of the system. -/
def compute_core (cluster_id compute_num compute_id : Nat) : Phase → List (FloatStep F)
  | .compute =>
    let row_offset := compute_id * l.input_samples
    let ldI := compute_num * l.input_samples
    let batch_offset := l.seq_len * l.input_samples
    softmax_fp32 exp compute_id (fun e => l1 cluster_id (row_offset + e))
      (fun e => l.ofmap cluster_id (row_offset + e)) ldI batch_offset l.batch_size
      (l.seq_len / compute_num) l.input_samples
  | _ => []

/-- All cores; barriers are those of a cluster, the last one is global. -/
def softmax_layer (cluster_num compute_num : Nat) : Program Phase (FloatStep F) where
  agents := cluster_num * (compute_num + 1)
  schedule := [.load, .compute, .store]
  code p i :=
    let cluster_id := i / (compute_num + 1)
    if i % (compute_num + 1) < compute_num then l.compute_core exp cluster_id compute_num i p
    else l.dm_core cluster_id p
  waits p i j := p == .store || i / (compute_num + 1) == j / (compute_num + 1)

end SoftmaxLayer

end Code

/-! ## When the layer is right -/

section Right

variable {F : Type} [Field F] [LinearOrder F] {exp : F → F} {l : SoftmaxLayer}
  {cluster_num compute_num : Nat}

open SoftmaxLayer (Phase)

/-- What a cluster may touch: the maps, and its copies of them. -/
def SoftmaxLayer.copies (l : SoftmaxLayer) (compute_num i : Nat) : Mem → Prop
  | .ext _ e => e < l.ifmap_size
  | .loc _ cluster_id e => cluster_id = i / (compute_num + 1) ∧ e < 2 * l.ifmap_size
  | .own compute_id _ => compute_id = i

/-- When all clusters have returned, every row of the output is the softmax of the input's row, and
no core has touched anything but the maps and its cluster's copies. -/
structure Normalises (exp : F → F) (l : SoftmaxLayer) (cluster_num compute_num : Nat) : Prop where
  completes : (l.softmax_layer exp cluster_num compute_num).Completes Statement.semantics
  rows : ∀ (x : Nat → F) (m : Mem → WithBot F) s,
    (∀ e < l.ifmap_size, m (.ext .ifmap e) = ((x e : F) : WithBot F)) →
    ((l.softmax_layer exp cluster_num compute_num).machine Statement.semantics).Reachable
        (Program.start m) s →
      (∀ i < cluster_num * (compute_num + 1), 3 ≤ (s.place i).1) →
        ∀ b < l.batch_size, ∀ r < l.seq_len, ∀ i < l.input_samples, ∀ max,
          IsGreatest {v | ∃ j < l.input_samples, v = x ((b * l.seq_len + r) * l.input_samples + j)}
            max →
          s.memory (.ext .ofmap ((b * l.seq_len + r) * l.input_samples + i)) =
            ((exp (x ((b * l.seq_len + r) * l.input_samples + i) - max) /
              ∑ j ∈ Finset.range l.input_samples,
                exp (x ((b * l.seq_len + r) * l.input_samples + j) - max) : F) : WithBot F)
  confined : ∀ p ∈ (l.softmax_layer exp cluster_num compute_num).schedule,
    ∀ i < cluster_num * (compute_num + 1),
      ∀ s ∈ (l.softmax_layer exp cluster_num compute_num).code p i, ∀ z,
        s.reads z ∨ s.writes z → l.copies compute_num i z

/-- **The load goes beyond the copies** if there is anything to load. -/
theorem load_beyond (some : 0 < l.ifmap_size) (some_cluster : 0 < cluster_num) :
    ¬Normalises exp l cluster_num compute_num := by
  intro normalises
  have factors : 0 < l.batch_size ∧ 0 < l.seq_len * l.input_samples := by
    rw [SoftmaxLayer.ifmap_size, Nat.mul_assoc] at some
    exact ⟨Nat.pos_of_mul_pos_right some, Nat.pos_of_mul_pos_left some⟩
  -- the last element of the last repetition
  obtain ⟨r, repetition⟩ : ∃ r, r + 1 = l.seq_len * l.input_samples * sizeof_float :=
    ⟨_, Nat.sub_add_cancel (Nat.mul_pos factors.2 (by decide))⟩
  obtain ⟨e, element⟩ : ∃ e, e + 1 = l.batch_size := ⟨_, Nat.sub_add_cancel factors.1⟩
  have mover : ¬compute_num % (compute_num + 1) < compute_num := by
    rw [Nat.mod_eq_of_lt (Nat.lt_succ_self compute_num)]
    exact Nat.lt_irrefl _
  have member : (transfer (l1 0 (r * l.batch_size + e)) (.ext .ifmap (r * l.batch_size + e)) :
      FloatStep F) ∈ (l.softmax_layer exp cluster_num compute_num).code .load compute_num := by
    simp only [SoftmaxLayer.softmax_layer, if_neg mover, Nat.div_eq_of_lt (Nat.lt_succ_self _)]
    exact List.mem_flatMap.mpr ⟨r, List.mem_range.mpr (by omega),
      List.mem_map.mpr ⟨e, List.mem_range.mpr (by omega), rfl⟩⟩
  have agent : compute_num < cluster_num * (compute_num + 1) :=
    Nat.lt_of_lt_of_le (Nat.lt_succ_self _) (Nat.le_mul_of_pos_left _ some_cluster)
  have inside := (normalises.confined .load List.mem_cons_self compute_num agent _ member _
    (.inr rfl)).2
  have last : r * l.batch_size + e + 1 = 4 * l.ifmap_size := by
    calc r * l.batch_size + e + 1 = (r + 1) * l.batch_size := by rw [Nat.succ_mul]; omega
      _ = 4 * l.ifmap_size := by
        rw [repetition, SoftmaxLayer.ifmap_size, sizeof_float]
        ring
  omega

/-- **The layer is right exactly when its maps are empty.** -/
theorem softmax_layer_normalises_iff (exp : F → F) (l : SoftmaxLayer)
    (cluster_num compute_num : Nat) (some_cluster : 0 < cluster_num)
    (some_batch : 0 < l.batch_size) (some_sample : 0 < l.input_samples) :
    Normalises exp l cluster_num compute_num ↔ l.seq_len = 0 := by
  constructor
  · intro normalises
    by_contra nonempty
    exact load_beyond (Nat.mul_pos (Nat.mul_pos some_batch (Nat.pos_of_ne_zero nonempty))
      some_sample) some_cluster normalises
  · intro empty
    refine ⟨Program.completes _ _, ?_, ?_⟩
    · intro x m s _ _ _ b _ r row
      rw [empty] at row
      exact absurd row (Nat.not_lt_zero r)
    · intro p _ i _ s member
      simp only [SoftmaxLayer.softmax_layer] at member
      split at member
      · cases p <;> simp [SoftmaxLayer.compute_core, softmax_fp32, empty] at member
      · cases p <;> simp [SoftmaxLayer.dm_core, snrt_dma_start_2d, empty] at member

theorem softmax_layer_normalises_none :
    Normalises (fun x : ℚ => x) ⟨2, 0, 3⟩ 2 4 ↔ (⟨2, 0, 3⟩ : SoftmaxLayer).seq_len = 0 :=
  softmax_layer_normalises_iff _ ⟨2, 0, 3⟩ 2 4 (by decide) (by decide) (by decide)

/-- One cluster of one core, and one element. -/
theorem one_element_beyond : ¬Normalises (fun _ : ℚ => 1) ⟨1, 1, 1⟩ 1 1 :=
  load_beyond (by decide) (by decide)

end Right

end SnitchCluster.Kernels.Softmax
