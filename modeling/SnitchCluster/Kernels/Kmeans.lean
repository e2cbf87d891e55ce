/-
# Kernels.Kmeans -- Lloyd's iterations over clusters and cores

`sw/kernels/misc/kmeans/src/kmeans.h`: the samples are split over the clusters and their cores.
In an iteration each core assigns its samples and sums them up in centroids of its own, core 0
of a cluster adds up those of its cluster, and core 0 of cluster 0 those of the clusters, which
it then divides by the counts.  Its sums are the centroids of the next iteration, in place:
`snrt_global_barrier` between assignment and update is commented out, so core 0 of cluster 0
may clear the centroids that the other cores still compare with.

Doubles are elements of an ordered field, the infinity that a minimum starts from comes on top.
Counters and indices do not overflow: the buffers fit the cluster's memory.
-/
import Mathlib.Tactic.IntervalCases
import SnitchCluster.Theory.Lloyd
import SnitchCluster.Theory.Supersteps

namespace SnitchCluster.Kernels.Kmeans

open Theory Theory.Supersteps

/-! ## The job -/

/-- `kmeans_args_t`, and how many clusters and compute cores share the job. -/
structure Sizes where
  n_samples : Nat
  n_features : Nat
  n_clusters : Nat
  n_iter : Nat
  snrt_cluster_num : Nat
  snrt_cluster_compute_core_num : Nat

namespace Sizes

variable (z : Sizes)

def n_samples_per_cluster : Nat := z.n_samples / z.snrt_cluster_num

def n_samples_per_core : Nat := z.n_samples_per_cluster / z.snrt_cluster_compute_core_num

/-- The data mover is the core after the compute cores. -/
def cores : Nat := z.snrt_cluster_compute_core_num + 1

end Sizes

/-- Words in memory, by buffer and element; the first index is the cluster, then the core.
`sum` and `min_dist` are registers of a core. -/
inductive Loc
  | samples (k : Nat)
  | centroids (k : Nat)
  | local_samples (c k : Nat)
  | local_centroids (c k : Nat)
  | membership (c sample_idx : Nat)
  | partial_membership_cnt (c i k : Nat)
  | partial_centroids (c i k : Nat)
  | sum (c i : Nat)
  | min_dist (c i : Nat)
  deriving DecidableEq

inductive Word (F : Type)
  | double (x : F)
  | inf
  | uint32 (n : Nat)
  deriving DecidableEq

namespace Word

variable {F : Type}

def toDouble [Zero F] : Word F → F
  | double x => x
  | _ => 0

def toNat : Word F → Nat
  | uint32 n => n
  | _ => 0

/-- `x < y` on doubles. -/
def lt [LT F] : Word F → Word F → Prop
  | double x, double y => x < y
  | double _, inf => True
  | _, _ => False

instance [LT F] [DecidableLT F] (x y : Word F) : Decidable (x.lt y) := by
  unfold lt
  split <;> infer_instance

end Word

/-- Where the job is: the transfers in, the parts of iteration `t`, the transfer out. -/
inductive Phase
  | load
  | assign (t : Nat)
  | update (t : Nat)
  | reduce (t : Nat)
  | combine (t : Nat)
  | store
  deriving DecidableEq

section Code

open Loc Word

variable {F : Type} [Field F] [LinearOrder F]

def set (x : Loc) (w : Word F) : Statement Loc (Word F) := .assign x x x x fun _ _ _ => w

def copy (x y : Loc) : Statement Loc (Word F) := .assign x y y y fun w _ _ => w

/-- `x += y` on doubles. -/
def addDouble (x y : Loc) : Statement Loc (Word F) :=
  .assign x x y y fun a b _ => double (a.toDouble + b.toDouble)

/-- `x += y` on counters. -/
def addCount (x y : Loc) : Statement Loc (Word F) :=
  .assign x x y y fun a b _ => uint32 (a.toNat + b.toNat)

/-- The centroids of iteration `t`: `local_centroids` becomes `final_centroids` after the first. -/
def current (t c k : Nat) : Loc :=
  if t = 0 then local_centroids c k else partial_centroids 0 0 k

/-- `euclidean_distance_squared(n_features, x, y)`, left in `sum`. -/
def euclidean_distance_squared (n_features : Nat) (sum : Loc) (x y : Nat → Loc) :
    List (Statement Loc (Word F)) :=
  set sum (double 0) :: (List.range n_features).map fun i =>
    .assign sum sum (x i) (y i) fun s a b =>
      double (s.toDouble + (a.toDouble - b.toDouble) * (a.toDouble - b.toDouble))

/-- The body of the loop over the centroids.  The sample's membership and the minimum are the
core's own, so one test stands for the two assignments it guards. -/
def compareCentroid (z : Sizes) (t c i s k : Nat) : List (Statement Loc (Word F)) :=
  euclidean_distance_squared z.n_features (sum c i)
    (fun f => local_samples c (s * z.n_features + f))
    (fun f => current t c (k * z.n_features + f)) ++
  [.assign (membership c s) (membership c s) (sum c i) (min_dist c i) fun old dist best =>
      if dist.lt best then uint32 k else old,
    .assign (min_dist c i) (min_dist c i) (sum c i) (sum c i) fun best dist _ =>
      if dist.lt best then dist else best]

/-- The body of the loop over the samples. -/
def assignSample (z : Sizes) (t c i s : Nat) : List (Statement Loc (Word F)) :=
  [set (min_dist c i) inf, set (membership c s) (uint32 0)] ++
  (List.range z.n_clusters).flatMap (compareCentroid z t c i s) ++
  [.scatter (partial_membership_cnt c i) (membership c s) (membership c s) toNat fun n _ =>
    uint32 (n.toNat + 1)]

/-- The assignment step of core `i` of cluster `c`. -/
def assignCode (z : Sizes) (t c i : Nat) : List (Statement Loc (Word F)) :=
  let start_sample_idx := i * z.n_samples_per_core
  (List.range z.n_clusters).map (fun k => set (partial_membership_cnt c i k) (uint32 0)) ++
  (List.range z.n_samples_per_core).flatMap fun s => assignSample z t c i (start_sample_idx + s)

/-- Adds a feature of a sample to the sums of its centroid. -/
def addFeature (z : Sizes) (c i s f : Nat) : Statement Loc (Word F) :=
  .scatter (partial_centroids c i) (membership c s) (local_samples c (s * z.n_features + f))
    (fun w => w.toNat * z.n_features + f) fun a x => double (a.toDouble + x.toDouble)

/-- The update step. -/
def updateCode (z : Sizes) (c i : Nat) : List (Statement Loc (Word F)) :=
  let start_sample_idx := i * z.n_samples_per_core
  (List.range z.n_clusters).flatMap (fun k => (List.range z.n_features).map fun f =>
    set (partial_centroids c i (k * z.n_features + f)) (double 0)) ++
  (List.range z.n_samples_per_core).flatMap fun s =>
    (List.range z.n_features).map (addFeature z c i (start_sample_idx + s))

/-- Accumulates the counters and sums of core `i'` of cluster `c'` in those of `i` of `c`. -/
def accumulate (z : Sizes) (c i c' i' : Nat) : List (Statement Loc (Word F)) :=
  (List.range z.n_clusters).flatMap fun k =>
    addCount (partial_membership_cnt c i k) (partial_membership_cnt c' i' k) ::
      (List.range z.n_features).map fun f =>
        addDouble (partial_centroids c i (k * z.n_features + f))
          (partial_centroids c' i' (k * z.n_features + f))

/-- The intra-cluster reduction, from core 1 on. -/
def reduceCode (z : Sizes) (c : Nat) : List (Statement Loc (Word F)) :=
  (List.range (z.snrt_cluster_compute_core_num - 1)).flatMap fun core_idx =>
    accumulate z c 0 c (core_idx + 1)

def normalize (z : Sizes) (k f : Nat) : Statement Loc (Word F) :=
  .assign (partial_centroids 0 0 (k * z.n_features + f))
    (partial_centroids 0 0 (k * z.n_features + f)) (partial_membership_cnt 0 0 k)
    (partial_membership_cnt 0 0 k) fun a n _ => double (a.toDouble / n.toNat)

/-- The inter-cluster reduction, from cluster 1 on, and the normalization. -/
def combineCode (z : Sizes) : List (Statement Loc (Word F)) :=
  (List.range (z.snrt_cluster_num - 1)).flatMap (fun cluster_idx =>
    accumulate z 0 0 (cluster_idx + 1) 0) ++
  (List.range z.n_clusters).flatMap fun k => (List.range z.n_features).map (normalize z k)

/-- The steps of compute core `i` of cluster `c`. -/
def computeCode (z : Sizes) (c i : Nat) : Phase → List (Statement Loc (Word F))
  | .assign t => assignCode z t c i
  | .update _ => updateCode z c i
  | .reduce _ => if i = 0 then reduceCode z c else []
  | .combine _ => if i = 0 ∧ c = 0 then combineCode z else []
  | _ => []

/-- What the second transfer leaves in the buffers behind `local_centroids`: it moves
`n_clusters * n_features * sizeof(double)` doubles, not bytes (`transfers`).  `overrun` says
which words it reaches, and with what. -/
def overrunCode (z : Sizes) (overrun : Loc → Option (Word F)) (c : Nat) :
    List (Statement Loc (Word F)) :=
  let spill (x : Loc) : Statement Loc (Word F) := .assign x x x x fun w _ _ => (overrun x).getD w
  (List.range z.n_samples_per_cluster).map (fun s => spill (membership c s)) ++
  (List.range z.snrt_cluster_compute_core_num).flatMap fun i =>
    (List.range z.n_clusters).map (fun k => spill (partial_membership_cnt c i k)) ++
    (List.range (z.n_clusters * z.n_features)).map fun k => spill (partial_centroids c i k)

/-- The steps of the data mover of cluster `c`. -/
def moverCode (z : Sizes) (overrun : Loc → Option (Word F)) (c : Nat) :
    Phase → List (Statement Loc (Word F))
  | .load =>
    let size := z.n_samples_per_cluster * z.n_features
    let offset := c * size
    (List.range size).map (fun k => copy (local_samples c k) (samples (offset + k))) ++
    (List.range (z.n_clusters * z.n_features)).map
      (fun k => copy (local_centroids c k) (centroids k)) ++
    overrunCode z overrun c
  | .store =>
    if c = 0 then
      (List.range (z.n_clusters * z.n_features)).map fun k =>
        copy (centroids k) (partial_centroids 0 0 k)
    else []
  | _ => []

/-- A DMA transfer: how many bytes it moves and how many its destination has. -/
structure Transfer where
  size : Nat
  allocated : Nat

/-- The data mover's transfers: the samples, the initial centroids and, on cluster 0, the final
ones.  The second is passed its size in bytes, multiplied by `sizeof(double)` once more. -/
def transfers (z : Sizes) : List Transfer :=
  let sizeof_double := 8
  let size := z.n_clusters * z.n_features * sizeof_double
  [⟨z.n_samples_per_cluster * z.n_features * sizeof_double,
      z.n_samples_per_cluster * z.n_features * sizeof_double⟩,
    ⟨size * sizeof_double, z.n_clusters * z.n_features * sizeof_double⟩,
    ⟨size, z.n_clusters * z.n_features * sizeof_double⟩]

def code (z : Sizes) (overrun : Loc → Option (Word F)) (p : Phase) (a : Nat) :
    List (Statement Loc (Word F)) :=
  if a % z.cores = z.snrt_cluster_compute_core_num then moverCode z overrun (a / z.cores) p
  else computeCode z (a / z.cores) (a % z.cores) p

/-- `kmeans_iteration`, and the global barrier behind it. -/
def kmeans_iteration (t : Nat) : List Phase := [.assign t, .update t, .reduce t, .combine t]

def schedule (z : Sizes) : List Phase :=
  .load :: (List.range z.n_iter).flatMap kmeans_iteration ++ [.store]

/-- The barrier at a phase's end. -/
def waits (z : Sizes) (p : Phase) (a b : Nat) : Bool :=
  match p with
  | .load => a / z.cores = b / z.cores            -- `snrt_cluster_hw_barrier`
  | .assign _ => false                            -- `// snrt_global_barrier`
  | .update _ => a / z.cores = b / z.cores        -- `snrt_cluster_hw_barrier`
  | .reduce _ => a % z.cores = 0 ∧ b % z.cores = 0  -- `snrt_inter_cluster_barrier` of the cores 0
  | .combine _ => true                            -- `snrt_global_barrier`
  | .store => false

def kmeans_job (z : Sizes) (overrun : Loc → Option (Word F)) :
    Program Phase (Statement Loc (Word F)) where
  agents := z.snrt_cluster_num * z.cores
  schedule := schedule z
  code := code z overrun
  waits := waits z

end Code


/-! ## Who touches what -/

section Footprints

open Loc Statement Loops

variable {F : Type} {z : Sizes} {c i t k : Nat} {x : Loc} {p : Phase}
  {overrun : Loc → Option (Word F)}

/-- What core `i` of cluster `c` writes in a phase. -/
def Written (z : Sizes) (c i : Nat) : Phase → Loc → Prop
  | .load, local_samples c' _ | .load, local_centroids c' _ | .load, membership c' _
  | .load, partial_membership_cnt c' _ _ | .load, partial_centroids c' _ _ =>
    c' = c ∧ i = z.snrt_cluster_compute_core_num
  | .assign _, membership c' s => c' = c ∧ s / z.n_samples_per_core = i
  | .assign _, partial_membership_cnt c' i' _ | .assign _, sum c' i' | .assign _, min_dist c' i'
  | .update _, partial_centroids c' i' _ => c' = c ∧ i' = i
  | .reduce _, partial_membership_cnt c' i' _ | .reduce _, partial_centroids c' i' _ =>
    c' = c ∧ i = 0 ∧ i' = 0
  | .combine _, partial_membership_cnt c' i' _ | .combine _, partial_centroids c' i' _ =>
    c = 0 ∧ i = 0 ∧ c' = 0 ∧ i' = 0
  | .store, centroids _ => c = 0 ∧ i = z.snrt_cluster_compute_core_num
  | _, _ => False

/-- What else it reads. -/
def Read (z : Sizes) (c i : Nat) : Phase → Loc → Prop
  | .load, samples _ | .load, centroids _ => True
  | .assign _, local_samples c' _ | .update _, local_samples c' _ => c' = c
  | .assign t, local_centroids c' _ => t = 0 ∧ c' = c
  | .assign t, partial_centroids c' i' _ =>
    t ≠ 0 ∧ c' = 0 ∧ i' = 0 ∧ i < z.snrt_cluster_compute_core_num
  | .update _, membership c' s => c' = c ∧ s / z.n_samples_per_core = i
  | .reduce _, partial_membership_cnt c' _ _ | .reduce _, partial_centroids c' _ _ =>
    c' = c ∧ i = 0
  | .combine _, partial_membership_cnt _ i' _ | .combine _, partial_centroids _ i' _ =>
    c = 0 ∧ i = 0 ∧ i' = 0
  | .store, partial_centroids c' i' _ => c = 0 ∧ c' = 0 ∧ i' = 0
  | _, _ => False

attribute [local simp] Written Read

theorem load_within :
    Within (Read z c z.snrt_cluster_compute_core_num .load)
      (Written z c z.snrt_cluster_compute_core_num .load) (moverCode z overrun c .load) := by
  simp [moverCode, overrunCode, copy, Statement.assign]

theorem store_within :
    Within (Read z c z.snrt_cluster_compute_core_num .store)
      (Written z c z.snrt_cluster_compute_core_num .store) (moverCode z overrun c .store) := by
  simp only [moverCode]
  split
  · next first => simp [copy, Statement.assign, first]
  · exact Semantics.within_nil

variable [Field F]

theorem update_within :
    Within (Read z c i (.update t)) (Written z c i (.update t))
      (updateCode z c i : List (Statement Loc (Word F))) := by
  simp +contextual [updateCode, addFeature, set, Statement.assign, Statement.scatter, grid_div]

theorem accumulate_within {R W : Loc → Prop} {c' i' : Nat}
    (cnt : ∀ k, W (partial_membership_cnt c i k)) (sums : ∀ k, W (partial_centroids c i k))
    (cnt' : ∀ k, R (partial_membership_cnt c' i' k)) (sums' : ∀ k, R (partial_centroids c' i' k)) :
    Within R W (accumulate z c i c' i' : List (Statement Loc (Word F))) := by
  simp [accumulate, addCount, addDouble, Statement.assign, cnt, sums, cnt', sums']

theorem reduce_within : Within (Read z c 0 (.reduce t)) (Written z c 0 (.reduce t))
    (reduceCode z c : List (Statement Loc (Word F))) := by
  unfold reduceCode
  refine Semantics.within_flatMap.mpr fun core_idx _ => accumulate_within ?_ ?_ ?_ ?_ <;>
    simp

theorem combine_within : Within (Read z 0 0 (.combine t)) (Written z 0 0 (.combine t))
    (combineCode z : List (Statement Loc (Word F))) := by
  refine Semantics.within_append.mpr ⟨Semantics.within_flatMap.mpr fun cluster_idx _ => accumulate_within ?_ ?_ ?_ ?_, ?_⟩
  all_goals simp [normalize, Statement.assign]

variable [LinearOrder F]

theorem assign_within (core : i < z.snrt_cluster_compute_core_num) :
    Within (Read z c i (.assign t)) (Written z c i (.assign t))
      (assignCode z t c i : List (Statement Loc (Word F))) := by
  unfold assignCode assignSample
  by_cases first : t = 0 <;>
    simp +contextual [Statement.assign, Statement.scatter, first, core,
      grid_div, compareCentroid, euclidean_distance_squared, set, current]

theorem code_within {a : Nat} : Within (Read z (a / z.cores) (a % z.cores) p)
    (Written z (a / z.cores) (a % z.cores) p) (code z overrun p a) := by
  unfold code
  split
  · next mover =>
      rw [mover]
      cases p with
      | load => exact load_within
      | store => exact store_within
      | assign | update | reduce | combine => exact Semantics.within_nil
  · next other =>
      have core : a % z.cores < z.snrt_cluster_compute_core_num := by
        have below := Nat.mod_lt a (show 0 < z.cores from Nat.succ_pos _)
        unfold Sizes.cores at below other ⊢
        omega
      cases p with
      | load | store => exact Semantics.within_nil
      | assign => exact assign_within core
      | update => exact update_within
      | reduce =>
        simp only [computeCode]
        split
        · next first =>
            rw [first]
            exact reduce_within
        · exact Semantics.within_nil
      | combine =>
        simp only [computeCode]
        split
        · next first =>
            rw [first.1, first.2]
            exact combine_within
        · exact Semantics.within_nil

/-- What is written in a phase only its writer touches. -/
theorem written_unique {c' i' : Nat} (mine : Written z c i p x)
    (touched : Read z c' i' p x ∨ Written z c' i' p x) : c = c' ∧ i = i' := by
  cases p <;> cases x <;> simp only [Written, Read] at mine touched <;> grind

theorem raceFree : (kmeans_job z overrun).RaceFree semantics := by
  intro p _ a _ b _ apart st member st' member' x writes
  have mine := (code_within st member).2 x writes
  have only : ∀ touched, a = b := fun touched => by
    obtain ⟨cluster, core⟩ := written_unique mine touched
    rw [← Nat.div_add_mod a z.cores, ← Nat.div_add_mod b z.cores, cluster, core]
  exact ⟨fun reads => apart (only ((code_within st' member').1 x reads)),
    fun writes' => apart (only (.inr ((code_within st' member').2 x writes')))⟩

end Footprints

/-! ## The barriers -/

section Barriers

open Loc Statement

variable {F : Type} [Field F] [LinearOrder F] {z : Sizes} {c i c' i' k t : Nat} {p q : Phase}
  {overrun : Loc → Option (Word F)}

/-- A phase's place in the schedule. -/
def position (z : Sizes) : Phase → Nat
  | .load => 0
  | .assign t => 4 * t + 1
  | .update t => 4 * t + 2
  | .reduce t => 4 * t + 3
  | .combine t => 4 * t + 4
  | .store => 4 * z.n_iter + 1

/-- The iteration exists. -/
def Planned (z : Sizes) : Phase → Prop
  | .assign t | .update t | .reduce t | .combine t => t < z.n_iter
  | .load | .store => True

theorem length_iterations :
    ((List.range z.n_iter).flatMap kmeans_iteration).length = z.n_iter * 4 :=
  length_rounds fun _ => rfl

theorem schedule_length : (schedule z).length = 4 * z.n_iter + 2 := by
  simp only [schedule, List.length_append, List.length_cons, length_iterations, List.length_nil]
  omega

theorem schedule_iteration (iteration : t < z.n_iter) {r : Nat} (part : r < 4) :
    (schedule z)[4 * t + r + 1]? = (kmeans_iteration t)[r]? := by
  have here : ((List.range z.n_iter).flatMap kmeans_iteration)[t * 4 + r]? =
      (kmeans_iteration t)[r]? := getElem?_rounds (fun _ => rfl) iteration part
  rw [← here, Nat.mul_comm t 4]
  simp only [schedule, List.cons_append, List.getElem?_cons_succ]
  exact List.getElem?_append_left (by rw [length_iterations]; omega)

theorem schedule_position (planned : Planned z p) :
    (schedule z)[position z p]? = some p := by
  cases p with
  | load => rfl
  | assign t => exact schedule_iteration planned (by decide : 0 < 4)
  | update t => exact schedule_iteration planned (by decide : 1 < 4)
  | reduce t => exact schedule_iteration planned (by decide : 2 < 4)
  | combine t => exact schedule_iteration planned (by decide : 3 < 4)
  | store =>
    have past := length_iterations (z := z)
    simp only [schedule, position, List.cons_append, List.getElem?_cons_succ]
    rw [List.getElem?_append_right (by omega), past, Nat.mul_comm, Nat.sub_self]
    rfl

theorem planned_of_schedule (here : (schedule z)[k]? = some p) :
    k = position z p ∧ Planned z p := by
  have below := (List.getElem?_eq_some_iff.mp here).1
  rw [schedule_length] at below
  rcases Nat.eq_zero_or_pos k with rfl | later
  · obtain rfl : Phase.load = p := Option.some.inj here
    exact ⟨rfl, trivial⟩
  · by_cases last : k = 4 * z.n_iter + 1
    · subst last
      have store : (schedule z)[4 * z.n_iter + 1]? = some .store :=
        schedule_position (p := .store) trivial
      obtain rfl : p = .store := Option.some.inj (here.symm.trans store)
      exact ⟨rfl, trivial⟩
    · obtain ⟨t, r, part, rfl⟩ : ∃ t r, r < 4 ∧ k = 4 * t + r + 1 :=
        ⟨(k - 1) / 4, (k - 1) % 4, Nat.mod_lt _ (by decide), by omega⟩
      have iteration : t < z.n_iter := by omega
      rw [schedule_iteration iteration part] at here
      interval_cases r
      all_goals
        obtain rfl := Option.some.inj here
        exact ⟨rfl, iteration⟩

/-- Core 0 of cluster 0 leaves an assignment, from the second on, when all compute cores have
finished theirs. -/
def assignedFirst (z : Sizes) (p : Phase) (a b : Nat) : Bool :=
  match p with
  | .assign t => t ≠ 0 ∧ a = 0 ∧ b % z.cores ≠ z.snrt_cluster_compute_core_num
  | _ => false

/-- The phases whose end lies between two phases of one iteration. -/
theorem same_iteration (earlier : position z p < position z q) (planned : Planned z p)
    (planned' : Planned z q) (some_iter : 0 < z.n_iter)
    (together : ∀ t < z.n_iter, ¬(position z p ≤ 4 * t + 4 ∧ 4 * t + 4 < position z q)) :
    (∃ t, p = .assign t ∧ (q = .update t ∨ q = .reduce t ∨ q = .combine t)) ∨
    (∃ t, p = .update t ∧ (q = .reduce t ∨ q = .combine t)) ∨
    (∃ t, p = .reduce t ∧ q = .combine t) ∨
    p = .load ∧ (q = .assign 0 ∨ q = .update 0 ∨ q = .reduce 0 ∨ q = .combine 0) := by
  cases p with
  | load =>
    have first := together 0 some_iter
    cases q <;> simp only [position, Planned] at * <;> grind
  | store => cases q <;> simp only [position, Planned] at * <;> omega
  | assign t | update t | reduce t | combine t =>
    have here := together t planned
    cases q <;> simp only [position, Planned] at * <;> grind

/-- Core `i` of cluster `c` in one phase and `i'` of `c'` in another touch the same, and one of
them writes it. -/
def Clash (z : Sizes) (p : Phase) (c i : Nat) (q : Phase) (c' i' : Nat) : Prop :=
  ∃ x, Written z c i p x ∧ (Read z c' i' q x ∨ Written z c' i' q x) ∨
    (Read z c i p x ∨ Written z c i p x) ∧ Written z c' i' q x

/-- Core 0 of cluster 0 writes the centroids that the others read. -/
def Overtakes (z : Sizes) (t i c' i' : Nat) : Prop :=
  t ≠ 0 ∧ c' = 0 ∧ i' = 0 ∧ i < z.snrt_cluster_compute_core_num

theorem clash_assign_update (clash : Clash z (.assign t) c i (.update t) c' i') :
    c = c' ∧ i = i' ∨ Overtakes z t i c' i' := by
  obtain ⟨x, touch⟩ := clash
  cases x <;> simp only [Written, Read, Overtakes] at touch ⊢ <;> grind

theorem clash_assign_reduce (clash : Clash z (.assign t) c i (.reduce t) c' i') :
    c = c' ∨ Overtakes z t i c' i' := by
  obtain ⟨x, touch⟩ := clash
  cases x <;> simp only [Written, Read, Overtakes] at touch ⊢ <;> grind

theorem clash_assign_combine (clash : Clash z (.assign t) c i (.combine t) c' i') :
    i = 0 ∧ i' = 0 ∨ Overtakes z t i c' i' := by
  obtain ⟨x, touch⟩ := clash
  cases x <;> simp only [Written, Read, Overtakes] at touch ⊢ <;> grind

theorem clash_update_reduce (clash : Clash z (.update t) c i (.reduce t) c' i') : c = c' := by
  obtain ⟨x, touch⟩ := clash
  cases x <;> simp only [Written, Read] at touch <;> grind

theorem clash_combine (later : p = .update t ∨ p = .reduce t)
    (clash : Clash z p c i (.combine t) c' i') : i = 0 ∧ i' = 0 := by
  obtain ⟨x, touch⟩ := clash
  rcases later with rfl | rfl <;> cases x <;> simp only [Written, Read] at touch <;> grind

theorem clash_load (first : q = .assign 0 ∨ q = .update 0 ∨ q = .reduce 0 ∨ q = .combine 0)
    (clash : Clash z .load c i q c' i') :
    c = c' ∨ q = .combine 0 ∧ c' = 0 ∧ i' = 0 := by
  obtain ⟨x, touch⟩ := clash
  rcases first with rfl | rfl | rfl | rfl <;> cases x <;> simp only [Written, Read] at touch <;>
    grind

theorem Clash.of_conflict {a b k' : Nat} (conflict : (kmeans_job z overrun).Conflict semantics k b k' a)
    (here : (schedule z)[k]? = some p) (there : (schedule z)[k']? = some q) :
    Clash z p (b / z.cores) (b % z.cores) q (a / z.cores) (a % z.cores) := by
  obtain ⟨st, member, st', member', x, touches⟩ := conflict
  obtain ⟨p', here', member⟩ := Program.mem_codeAt member
  obtain ⟨q', there', member'⟩ := Program.mem_codeAt member'
  obtain rfl : p' = p := Option.some.inj (here'.symm.trans here)
  obtain rfl : q' = q := Option.some.inj (there'.symm.trans there)
  have mine := code_within st member
  have yours := code_within st' member'
  refine ⟨x, touches.imp ?_ ?_⟩
  · rintro ⟨writes, touches⟩
    exact ⟨mine.2 x writes, touches.elim (yours.1 x) fun writes' => .inr (yours.2 x writes')⟩
  · rintro ⟨touches, writes⟩
    exact ⟨touches.elim (mine.1 x) fun writes' => .inr (mine.2 x writes'), yours.2 x writes⟩

/-- **Every conflict has its barrier**, given the wait for the assignments. -/
theorem guarded (some_iter : 0 < z.n_iter) :
    (kmeans_job z overrun).Guarded semantics (assignedFirst z) := by
  intro a agent b other apart k k' earlier conflict
  obtain ⟨_, member, _, member', _⟩ := id conflict
  obtain ⟨p, here, _⟩ := Program.mem_codeAt member
  obtain ⟨q, there, _⟩ := Program.mem_codeAt member'
  have clash := Clash.of_conflict conflict here there
  obtain ⟨rfl, planned⟩ := planned_of_schedule here
  obtain ⟨rfl, planned'⟩ := planned_of_schedule there
  have distinct : ¬(b / z.cores = a / z.cores ∧ b % z.cores = a % z.cores) := fun same => by
    rw [← Nat.div_add_mod a z.cores, ← Nat.div_add_mod b z.cores, same.1, same.2] at apart
    exact apart rfl
  -- the waits of one iteration
  have assigned : ∀ t < z.n_iter, position z p ≤ 4 * t + 1 → 4 * t + 1 < position z q →
      Overtakes z t (b % z.cores) (a / z.cores) (a % z.cores) →
      (kmeans_job z overrun).Follows (assignedFirst z) (position z p) b (position z q) a := by
    rintro t iteration above below ⟨second, cluster, core, compute⟩
    have first : a = 0 := by rw [← Nat.div_add_mod a z.cores, cluster, core, Nat.mul_zero]
    refine .wait above below (schedule_position (p := .assign t) iteration) (.inr ?_)
    exact decide_eq_true ⟨second, first, compute.ne⟩
  have updated : ∀ t < z.n_iter, position z p ≤ 4 * t + 2 → 4 * t + 2 < position z q →
      b / z.cores = a / z.cores →
      (kmeans_job z overrun).Follows (assignedFirst z) (position z p) b (position z q) a :=
    fun t iteration above below same =>
      .wait above below (schedule_position (p := .update t) iteration)
        (.inl (decide_eq_true same.symm))
  have reduced : ∀ t < z.n_iter, position z p ≤ 4 * t + 3 → 4 * t + 3 < position z q →
      b % z.cores = 0 → a % z.cores = 0 →
      (kmeans_job z overrun).Follows (assignedFirst z) (position z p) b (position z q) a :=
    fun t iteration above below first first' =>
      .wait above below (schedule_position (p := .reduce t) iteration)
        (.inl (decide_eq_true ⟨first', first⟩))
  by_cases between : ∃ t < z.n_iter, position z p ≤ 4 * t + 4 ∧ 4 * t + 4 < position z q
  · obtain ⟨t, iteration, above, below⟩ := between
    exact .wait above below (schedule_position (p := .combine t) iteration) (.inl rfl)
  · have together : ∀ t < z.n_iter, ¬(position z p ≤ 4 * t + 4 ∧ 4 * t + 4 < position z q) :=
      fun t iteration here => between ⟨t, iteration, here⟩
    rcases same_iteration earlier planned planned' some_iter together with
      ⟨t, rfl, rfl | rfl | rfl⟩ | ⟨t, rfl, rfl | rfl⟩ | ⟨t, rfl, rfl⟩ | ⟨rfl, first⟩
    · exact assigned t planned le_rfl (by simp [position])
        ((clash_assign_update clash).resolve_left distinct)
    · rcases clash_assign_reduce clash with same | overtakes
      · exact updated t planned (by simp [position]) (by simp [position]) same
      · exact assigned t planned le_rfl (by simp [position]) overtakes
    · rcases clash_assign_combine clash with ⟨first, first'⟩ | overtakes
      · exact reduced t planned (by simp [position]) (by simp [position]) first first'
      · exact assigned t planned le_rfl (by simp [position]) overtakes
    · exact updated t planned le_rfl (by simp [position]) (clash_update_reduce clash)
    · obtain ⟨first, first'⟩ := clash_combine (.inl rfl) clash
      exact reduced t planned (by simp [position]) (by simp [position]) first first'
    · obtain ⟨first, first'⟩ := clash_combine (.inr rfl) clash
      exact reduced t planned le_rfl (by simp [position]) first first'
    · have loaded : ∀ l k', l / z.cores = b / z.cores → 0 < k' →
          (kmeans_job z overrun).Follows (assignedFirst z) 0 b k' l :=
        fun l k' same later => .wait le_rfl later (schedule_position (p := .load) trivial)
          (.inl (decide_eq_true same))
      rcases clash_load first clash with same | ⟨rfl, cluster, core⟩
      · exact loaded a _ same.symm earlier
      · -- through core 0 of the other cluster
        have some_core : 0 < z.cores := Nat.succ_pos _
        have agent' : b / z.cores * z.cores < (kmeans_job z overrun).agents := by
          refine Nat.lt_of_le_of_lt (Nat.div_mul_le_self b z.cores) other
        refine .through agent' (loaded _ 3 (Nat.mul_div_cancel _ some_core) (by decide))
          (by simp [position]) (schedule_position (p := .reduce 0) some_iter) (.inl ?_)
        exact decide_eq_true ⟨core, Nat.mul_mod_left _ _⟩

end Barriers

end SnitchCluster.Kernels.Kmeans
