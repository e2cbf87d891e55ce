/-
# Kernels.Atax -- the transpose of a matrix times the matrix times a vector

Every cluster loads the whole matrix and the vector and computes the whole first product; of the
second one each compute core of the system computes its own columns.  The core's index in the system
says which columns these are, that in the cluster where they stand in the cluster's part of the
result, which its data mover stores (`atax_job_product`).
-/
import SnitchCluster.Kernels.Gemv
import SnitchCluster.Theory.Teams

namespace SnitchCluster.Kernels.Atax

open Blas Gemv Theory Theory.Loops Theory.Supersteps

/-! ## The code -/

section Code

variable {F : Type} [CommSemiring F]

inductive AtaxArray
  | A
  | x
  | y
  deriving DecidableEq

inductive AtaxBuffer
  | local_A
  | local_x
  | local_y
  | local_tmp
  deriving DecidableEq

/-- The arrays in external memory, and the buffers by cluster. -/
abbrev Mem := Word AtaxArray AtaxBuffer

/-- What stands between the barriers of `atax_job`. -/
inductive AtaxPhase
  | load
  | multiply
  | transposed
  | writeback
  deriving DecidableEq

/-- The sizes, and the machine. -/
structure AtaxJob where
  M : Nat
  N : Nat
  cluster_num : Nat
  compute_core_num : Nat

namespace AtaxJob

variable (job : AtaxJob)

def global_compute_core_num : Nat := job.cluster_num * job.compute_core_num

def core_range : Nat := job.N / job.global_compute_core_num

def snrt_cluster_idx (i : Nat) : Nat := i / (job.compute_core_num + 1)

/-- The last core of a cluster is its data mover. -/
def snrt_cluster_core_idx (i : Nat) : Nat := i % (job.compute_core_num + 1)

def global_compute_core_idx (i : Nat) : Nat :=
  job.snrt_cluster_idx i * job.compute_core_num + job.snrt_cluster_core_idx i

/-- `y = At * tmp`, the columns of a core. -/
def transposed (i : Nat) : List (Step AtaxArray AtaxBuffer F) :=
  let cluster := job.snrt_cluster_idx i
  let core_offset := job.global_compute_core_idx i * job.core_range
  let cluster_core_offset := job.snrt_cluster_core_idx i * job.core_range
  (List.range job.core_range).flatMap fun j1 =>
    let j := core_offset + j1
    let cluster_j := cluster_core_offset + j1
    dot (.own i 0) job.M (fun k => .loc .local_A cluster (k * job.N + j))
        (.loc .local_tmp cluster) ++
      [transfer (.loc .local_y cluster cluster_j) (.own i 0)]

/-- The data mover of a cluster. -/
def dm_core (cluster : Nat) : AtaxPhase → List (Step AtaxArray AtaxBuffer F)
  | .load =>
    snrt_dma_start_1d (.loc .local_A cluster) (.ext .A) (job.M * job.N) ++
      snrt_dma_start_1d (.loc .local_x cluster) (.ext .x) job.N
  | .writeback =>
    let tile_size := job.N / job.cluster_num
    snrt_dma_start_1d (fun e => .ext .y (cluster * tile_size + e)) (.loc .local_y cluster)
      tile_size
  | _ => []

/-- A compute core. -/
def compute_core (i : Nat) : AtaxPhase → List (Step AtaxArray AtaxBuffer F)
  | .multiply =>
    let cluster := job.snrt_cluster_idx i
    (gemv job.compute_core_num (job.snrt_cluster_core_idx i) (.own i 0) false job.M job.N 1
      (.loc .local_A cluster) (.loc .local_x cluster) 1 (.loc .local_tmp cluster)).code
  | .transposed => job.transposed i
  | _ => []

/-- All cores of the system, which meet by clusters. -/
def atax_job : Program AtaxPhase (Step AtaxArray AtaxBuffer F) where
  agents := job.cluster_num * (job.compute_core_num + 1)
  schedule := [.load, .multiply, .transposed, .writeback]
  code p i :=
    if job.snrt_cluster_core_idx i < job.compute_core_num then job.compute_core i p
    else job.dm_core (job.snrt_cluster_idx i) p
  waits _ i j := job.snrt_cluster_idx i == job.snrt_cluster_idx j

end AtaxJob

end Code

/-! ## Who touches what -/

section Footprints

variable {F : Type} [CommSemiring F] {job : AtaxJob}

namespace AtaxJob

variable (job : AtaxJob)

/-- The columns of a cluster. -/
def tile_size : Nat := job.N / job.cluster_num

def owner : Mem → Option Nat
  | .ext .y e => some (e / job.tile_size)
  | .ext _ _ => none
  | .loc _ cluster _ => some cluster
  | .own i _ => some (job.snrt_cluster_idx i)

def reads (p : AtaxPhase) (i : Nat) (z : Mem) : Prop :=
  match p with
  | .load => ∃ e, z = .ext .A e ∨ z = .ext .x e
  | .multiply => ∃ e, z = .loc .local_A (job.snrt_cluster_idx i) e ∨
      z = .loc .local_x (job.snrt_cluster_idx i) e
  | .transposed => ∃ e, z = .loc .local_A (job.snrt_cluster_idx i) e ∨
      z = .loc .local_tmp (job.snrt_cluster_idx i) e
  | .writeback => ∃ e, z = .loc .local_y (job.snrt_cluster_idx i) e

def writes (p : AtaxPhase) (i : Nat) (z : Mem) : Prop :=
  match p with
  | .load => job.snrt_cluster_core_idx i = job.compute_core_num ∧
      ((∃ e < job.M * job.N, z = .loc .local_A (job.snrt_cluster_idx i) e) ∨
        ∃ e < job.N, z = .loc .local_x (job.snrt_cluster_idx i) e)
  | .multiply => job.snrt_cluster_core_idx i < job.compute_core_num ∧
      (z = .own i 0 ∨ ∃ k ∈ rows job.compute_core_num (job.snrt_cluster_core_idx i) job.M,
        z = .loc .local_tmp (job.snrt_cluster_idx i) k)
  | .transposed => job.snrt_cluster_core_idx i < job.compute_core_num ∧
      (z = .own i 0 ∨ ∃ j1 < job.core_range, z = .loc .local_y (job.snrt_cluster_idx i)
        (job.snrt_cluster_core_idx i * job.core_range + j1))
  | .writeback => job.snrt_cluster_core_idx i = job.compute_core_num ∧
      ∃ e < job.tile_size, z = .ext .y (job.snrt_cluster_idx i * job.tile_size + e)

end AtaxJob

theorem transposed_within (i : Nat) :
    Statement.Within (job.reads .transposed i)
      (fun z => z = .own i 0 ∨ ∃ j1 < job.core_range, z = .loc .local_y (job.snrt_cluster_idx i)
        (job.snrt_cluster_core_idx i * job.core_range + j1))
      (job.transposed i : List (Step AtaxArray AtaxBuffer F)) := by
  refine Semantics.within_flatMap.mpr fun j1 small => Semantics.within_append.mpr ⟨?_, ?_⟩
  · refine dot_within.mono ?_ fun z here => .inl here
    rintro z ⟨k, _, rfl | rfl⟩
    · exact .inl ⟨_, .inl rfl⟩
    · exact .inl ⟨_, .inr rfl⟩
  · refine Semantics.within_cons.mpr ⟨⟨?_, fun z here => .inr ⟨j1, small, here⟩⟩,
      Semantics.within_nil⟩
    rintro z (rfl | rfl | rfl) <;> exact .inr (.inl rfl)

theorem cluster_core_le (i : Nat) : job.snrt_cluster_core_idx i ≤ job.compute_core_num :=
  Nat.le_of_lt_succ (Nat.mod_lt i (Nat.succ_pos _))

theorem code_within (few_rows : job.M ≤ 2 ^ 32) (few_terms : job.N ≤ 2 ^ 32)
    (some_term : 0 < job.N) (p : AtaxPhase) (i : Nat) :
    Statement.Within (job.reads p i) (job.writes p i)
      ((job.atax_job : Program _ (Step _ _ F)).code p i) := by
  simp only [AtaxJob.atax_job]
  split
  · next compute =>
      cases p with
      | load | writeback => exact Semantics.within_nil
      | multiply =>
        refine (gemv_within (Nat.zero_lt_of_lt compute) compute some_term few_rows
          few_terms).mono ?_ fun z here => ⟨compute, here⟩
        rintro z (⟨e, rfl⟩ | ⟨e, rfl⟩)
        · exact .inl ⟨e, .inl rfl⟩
        · exact .inl ⟨e, .inr rfl⟩
      | transposed => exact (transposed_within i).mono (fun _ => .inl) fun _ here => ⟨compute, here⟩
  · next mover =>
      have dm : job.snrt_cluster_core_idx i = job.compute_core_num :=
        Nat.le_antisymm (cluster_core_le i) (Nat.le_of_not_lt mover)
      cases p with
      | multiply | transposed => exact Semantics.within_nil
      | load =>
        refine Semantics.within_append.mpr ⟨within_start_1d ?_ ?_, within_start_1d ?_ ?_⟩
        · exact fun e _ => ⟨e, .inl rfl⟩
        · exact fun e inside => ⟨dm, .inl ⟨e, inside, rfl⟩⟩
        · exact fun e _ => ⟨e, .inr rfl⟩
        · exact fun e inside => ⟨dm, .inr ⟨e, inside, rfl⟩⟩
      | writeback =>
        exact within_start_1d (fun e _ => ⟨e, rfl⟩) fun e inside => ⟨dm, e, inside, rfl⟩

/-- An agent is known by its cluster and its index there. -/
theorem agent_eq {i j : Nat} (cluster : job.snrt_cluster_idx i = job.snrt_cluster_idx j)
    (core : job.snrt_cluster_core_idx i = job.snrt_cluster_core_idx j) : i = j := by
  rw [← Nat.div_add_mod' i (job.compute_core_num + 1),
    ← Nat.div_add_mod' j (job.compute_core_num + 1)]
  exact congrArg₂ (fun q r => q * (job.compute_core_num + 1) + r) cluster core

/-- Nobody reads in a phase what is written in it. -/
theorem unread {p : AtaxPhase} {i j : Nat} {z : Mem} (written : job.writes p i z) :
    ¬job.reads p j z := by
  cases p with
  | load =>
    obtain ⟨_, ⟨e, _, rfl⟩ | ⟨e, _, rfl⟩⟩ := written <;> rintro ⟨e', read | read⟩ <;> cases read
  | multiply | transposed =>
    obtain ⟨_, rfl | ⟨k, _, rfl⟩⟩ := written <;> rintro ⟨e', read | read⟩ <;> cases read
  | writeback =>
    obtain ⟨_, e, _, rfl⟩ := written
    rintro ⟨e', read⟩
    cases read

theorem atax_teamed (few_rows : job.M ≤ 2 ^ 32) (few_terms : job.N ≤ 2 ^ 32)
    (some_term : 0 < job.N) :
    (job.atax_job : Program _ (Step _ _ F)).Teamed Statement.semantics job.snrt_cluster_idx
      job.owner job.reads job.writes where
  waits _ _ _ _ _ _ same := by simp [AtaxJob.atax_job, same]
  within p _ i _ := code_within few_rows few_terms some_term p i
  reads := by
    intro p _ i _ z read t owned
    cases p with
    | load =>
      obtain ⟨e, rfl | rfl⟩ := read <;> cases owned
    | multiply | transposed =>
      obtain ⟨e, rfl | rfl⟩ := read <;> exact (Option.some.inj owned).symm
    | writeback =>
      obtain ⟨e, rfl⟩ := read
      exact (Option.some.inj owned).symm
  writes := by
    intro p _ i _ z written
    cases p with
    | load =>
      obtain ⟨_, ⟨e, _, rfl⟩ | ⟨e, _, rfl⟩⟩ := written <;> rfl
    | multiply =>
      obtain ⟨_, rfl | ⟨k, _, rfl⟩⟩ := written <;> rfl
    | transposed =>
      obtain ⟨_, rfl | ⟨k, _, rfl⟩⟩ := written <;> rfl
    | writeback =>
      obtain ⟨_, e, inside, rfl⟩ := written
      exact congrArg some (grid_div inside)
  apart := by
    intro p _ i _ j _ other same z written
    have apart : job.snrt_cluster_core_idx i ≠ job.snrt_cluster_core_idx j :=
      fun core => other (agent_eq same core)
    refine ⟨unread written, fun theirs => ?_⟩
    cases p with
    | load | writeback => exact apart (written.1.trans theirs.1.symm)
    | multiply =>
      obtain ⟨worker, rfl | ⟨k, mine, rfl⟩⟩ := written
      · obtain ⟨_, own | ⟨k, _, here⟩⟩ := theirs
        · injection own with own
          exact other own
        · cases here
      · obtain ⟨worker', own | ⟨k', theirs, here⟩⟩ := theirs
        · cases own
        · injection here with _ _ here
          exact apart ((rows_dealt (Nat.zero_lt_of_lt worker)).once _ worker _ worker' k mine
            (here ▸ theirs))
    | transposed =>
      obtain ⟨worker, rfl | ⟨k, mine, rfl⟩⟩ := written
      · obtain ⟨_, own | ⟨k, _, here⟩⟩ := theirs
        · injection own with own
          exact other own
        · cases here
      · obtain ⟨worker', own | ⟨k', theirs, here⟩⟩ := theirs
        · cases own
        · injection here with _ _ here
          exact apart (grid_inj mine theirs here).1

end Footprints

/-! ## Phase by phase -/

section Values

variable {F : Type} [CommSemiring F] {job : AtaxJob}

/-- A core of a cluster. -/
def AtaxJob.agent (job : AtaxJob) (cluster core : Nat) : Nat :=
  cluster * (job.compute_core_num + 1) + core

theorem agent_index (job : AtaxJob) (cluster : Nat) {core : Nat}
    (inside : core ≤ job.compute_core_num) :
    job.snrt_cluster_idx (job.agent cluster core) = cluster ∧
      job.snrt_cluster_core_idx (job.agent cluster core) = core :=
  ⟨grid_div (Nat.lt_succ_of_le inside), grid_mod (Nat.lt_succ_of_le inside)⟩

theorem agent_lt {cluster core : Nat} (small : cluster < job.cluster_num)
    (inside : core ≤ job.compute_core_num) :
    job.agent cluster core < (job.atax_job : Program _ (Step _ _ F)).agents :=
  grid_lt small (Nat.lt_succ_of_le inside)

theorem code_dm (cluster : Nat) (p : AtaxPhase) : (job.atax_job : Program _ (Step _ _ F)).code p
    (job.agent cluster job.compute_core_num) = job.dm_core cluster p := by
  obtain ⟨idx, core⟩ := agent_index job cluster le_rfl
  simp only [AtaxJob.atax_job]
  rw [if_neg (by omega), idx]

theorem code_compute {cluster core : Nat} (worker : core < job.compute_core_num) (p : AtaxPhase) :
    (job.atax_job : Program _ (Step _ _ F)).code p (job.agent cluster core) =
      job.compute_core (job.agent cluster core) p := by
  obtain ⟨_, index⟩ := agent_index job cluster worker.le
  simp only [AtaxJob.atax_job]
  rw [if_pos (by omega)]

omit [CommSemiring F] in
/-- A transfer by elements. -/
theorem start_1d_value (dst src : Nat → Mem) {size : Nat} {m : Mem → F}
    (inj : ∀ e < size, ∀ e' < size, dst e = dst e' → e = e') (apart : ∀ e e', src e ≠ dst e')
    {e : Nat} (inside : e < size) :
    after Statement.run (snrt_dma_start_1d dst src size) m (dst e) = m (src e) := by
  refine (after_each (p := dst) (fun _ _ _ written => written) inj ?_ inside).trans
    (Function.update_self _ _ _)
  rintro r _ r' _ _ (same | same | same) <;> exact apart r r' same.symm

variable (few_rows : job.M ≤ 2 ^ 32) (few_terms : job.N ≤ 2 ^ 32) (some_term : 0 < job.N)
  (m : Mem → F)

/-- The memory before phase number `k`. -/
abbrev AtaxJob.before (job : AtaxJob) (m : Mem → F) (k : Nat) : Mem → F :=
  (job.atax_job : Program _ (Step _ _ F)).reference Statement.semantics m k

include few_rows few_terms some_term in
/-- **Every cluster loads the matrix and the vector.** -/
theorem loaded {cluster : Nat} (small : cluster < job.cluster_num) :
    (∀ e < job.M * job.N, job.before m 1 (.loc .local_A cluster e) = m (.ext .A e)) ∧
      ∀ e < job.N, job.before m 1 (.loc .local_x cluster e) = m (.ext .x e) := by
  have teamed := atax_teamed (F := F) few_rows few_terms some_term
  obtain ⟨idx, core⟩ := agent_index job cluster le_rfl
  have dm := agent_lt (F := F) small (le_refl job.compute_core_num)
  have matrix : Statement.Within (fun z => ∃ e, z = .ext .A e)
      (fun z => ∃ e, z = .loc .local_A cluster e)
      (snrt_dma_start_1d (.loc .local_A cluster) (.ext .A) (job.M * job.N) :
        List (Step AtaxArray AtaxBuffer F)) :=
    within_start_1d (fun e _ => ⟨e, rfl⟩) fun e _ => ⟨e, rfl⟩
  have vector : Statement.Within (fun z => ∃ e, z = .ext .x e)
      (fun z => ∃ e, z = .loc .local_x cluster e)
      (snrt_dma_start_1d (.loc .local_x cluster) (.ext .x) job.N :
        List (Step AtaxArray AtaxBuffer F)) :=
    within_start_1d (fun e _ => ⟨e, rfl⟩) fun e _ => ⟨e, rfl⟩
  constructor
  · intro e inside
    refine (teamed.reference_own (m := m) (k := 0) rfl dm
      ⟨core, .inl ⟨e, inside, by rw [idx]⟩⟩).trans ?_
    rw [code_dm]
    change after Statement.run (_ ++ _) m _ = _
    rw [after_append, vector.frame (by rintro ⟨e', same⟩; cases same)]
    exact start_1d_value (.loc .local_A cluster) (.ext .A) (fun _ _ _ _ same => by injection same)
      nofun inside
  · intro e inside
    refine (teamed.reference_own (m := m) (k := 0) rfl dm
      ⟨core, .inr ⟨e, inside, by rw [idx]⟩⟩).trans ?_
    rw [code_dm]
    change after Statement.run (_ ++ _) m _ = _
    rw [after_append, start_1d_value (.loc .local_x cluster) (.ext .x)
        (fun _ _ _ _ same => by injection same) nofun inside,
      matrix.frame (by rintro ⟨e', same⟩; cases same)]

omit [CommSemiring F] few_rows few_terms some_term m in
theorem tmp_apart (i cluster : Nat) : Apart (.own i 0 : Mem) (.loc .local_A cluster)
    (.loc .local_x cluster) (.loc .local_tmp cluster) where
  acc_a := nofun
  acc_x := nofun
  acc_y := nofun
  y_a := nofun
  y_x := nofun
  y_inj i j same := by injection same

include few_rows few_terms some_term in
/-- **The first product**, in every cluster. -/
theorem multiplied {cluster k : Nat} (small : cluster < job.cluster_num)
    (some_core : 0 < job.compute_core_num) (row : k < job.M) :
    job.before m 2 (.loc .local_tmp cluster k) =
      ∑ j ∈ Finset.range job.N, m (.ext .A (k * job.N + j)) * m (.ext .x j) := by
  have teamed := atax_teamed (F := F) few_rows few_terms some_term
  obtain ⟨core, worker, mine⟩ := (rows_dealt (m := job.M) some_core).all k row
  obtain ⟨idx, index⟩ := agent_index job cluster worker.le
  refine (teamed.reference_own (m := m) (k := 1) rfl (agent_lt small worker.le)
    ⟨by rw [index]; exact worker, .inr ⟨k, by rw [index]; exact mine, by rw [idx]⟩⟩).trans ?_
  rw [code_compute worker]
  simp only [AtaxJob.compute_core, idx, index]
  refine (gemv_value some_core worker some_term few_rows few_terms (tmp_apart _ cluster)
    mine).trans ?_
  rw [mul_one]
  obtain ⟨matrix, vector⟩ := loaded few_rows few_terms some_term m small
  refine Finset.sum_congr rfl fun j term => ?_
  have term := Finset.mem_range.mp term
  rw [← matrix _ (grid_lt row term), ← vector j term, Nat.mul_one]
  rfl

/-- A column of a core. -/
def AtaxJob.column (job : AtaxJob) (i j1 : Nat) : List (Step AtaxArray AtaxBuffer F) :=
  dot (.own i 0) job.M
      (fun k => .loc .local_A (job.snrt_cluster_idx i)
        (k * job.N + (job.global_compute_core_idx i * job.core_range + j1)))
      (.loc .local_tmp (job.snrt_cluster_idx i)) ++
    [transfer (.loc .local_y (job.snrt_cluster_idx i)
      (job.snrt_cluster_core_idx i * job.core_range + j1)) (.own i 0)]

theorem column_writes {i j1 : Nat} {z : Mem} {s : Step AtaxArray AtaxBuffer F}
    (member : s ∈ job.column i j1) (written : s.writes z) :
    z = .own i 0 ∨ z = .loc .local_y (job.snrt_cluster_idx i)
      (job.snrt_cluster_core_idx i * job.core_range + j1) := by
  rcases List.mem_append.mp member with member | member
  · exact .inl ((dot_within s member).2 z written)
  · cases List.mem_singleton.mp member
    exact .inr written

/-- What a core leaves in its columns. -/
theorem transposed_value {i j1 : Nat} (inside : j1 < job.core_range) (m : Mem → F) :
    after Statement.run (job.transposed i) m (.loc .local_y (job.snrt_cluster_idx i)
        (job.snrt_cluster_core_idx i * job.core_range + j1)) =
      ∑ k ∈ Finset.range job.M, m (.loc .local_A (job.snrt_cluster_idx i)
          (k * job.N + (job.global_compute_core_idx i * job.core_range + j1))) *
        m (.loc .local_tmp (job.snrt_cluster_idx i) k) := by
  obtain ⟨m', same, result⟩ := after_one (S := Statement.semantics) (f := job.column i)
    (List.mem_range.mpr inside) List.nodup_range m
  have keep (z : Mem) (no_acc : z ≠ .own i 0) (own : ∀ j2, z = .loc .local_y
      (job.snrt_cluster_idx i) (job.snrt_cluster_core_idx i * job.core_range + j2) → j2 = j1) :
      OthersKeep Statement.semantics (List.range job.core_range) (job.column (F := F) i) j1 z := by
    intro j2 _ other s member written
    rcases column_writes member written with here | here
    · exact no_acc here
    · exact other (own j2 here)
  refine (result _ (keep (.loc ..) nofun fun j2 here => ?_)).trans ?_
  · injection here with _ _ here
    omega
  · change after Statement.run (_ ++ _) m' _ = _
    rw [after_append]
    refine (Function.update_self _ _ _).trans ((dot_value fun k _ => ?_).trans ?_)
    · exact ⟨nofun, nofun⟩
    refine Finset.sum_congr rfl fun k _ => congrArg₂ (· * ·) ?_ ?_
    · exact same (.loc .local_A _ _) (keep (.loc .local_A _ _) nofun nofun)
    · exact same (.loc .local_tmp _ _) (keep (.loc .local_tmp _ _) nofun nofun)

omit [CommSemiring F] few_rows few_terms some_term m in
/-- Every column is one of some core, at the same place in the system and in its cluster. -/
theorem column_parts (whole : job.global_compute_core_num ∣ job.N) {e : Nat} (column : e < job.N) :
    ∃ cluster < job.cluster_num, ∃ core < job.compute_core_num, ∃ j1 < job.core_range,
      core * job.core_range + j1 < job.tile_size ∧
      cluster * job.tile_size + (core * job.core_range + j1) = e ∧
      job.global_compute_core_idx (job.agent cluster core) * job.core_range + j1 = e := by
  have some_term : 0 < job.N := Nat.zero_lt_of_lt column
  have total : 0 < job.cluster_num * job.compute_core_num := Nat.pos_of_dvd_of_pos whole some_term
  have some_cluster : 0 < job.cluster_num := Nat.pos_of_mul_pos_right total
  have width : job.compute_core_num * job.core_range = job.tile_size ∧
      job.cluster_num * job.tile_size = job.N := by
    obtain ⟨q, eq⟩ := whole
    have global : job.global_compute_core_num = job.cluster_num * job.compute_core_num := rfl
    rw [AtaxJob.core_range, AtaxJob.tile_size, eq, global, Nat.mul_div_cancel_left q total,
      Nat.mul_assoc, Nat.mul_div_cancel_left _ some_cluster]
    exact ⟨rfl, rfl⟩
  obtain ⟨width, tiles⟩ := width
  have some_column : 0 < job.tile_size := Nat.pos_of_mul_pos_left (tiles ▸ some_term)
  have some_range : 0 < job.core_range := Nat.pos_of_mul_pos_left (width ▸ some_column)
  have inside := Nat.mod_lt e some_column
  have worker : e % job.tile_size / job.core_range < job.compute_core_num :=
    Nat.div_lt_of_lt_mul (by rwa [Nat.mul_comm, width])
  have split := Nat.div_add_mod' e job.tile_size
  have split' := Nat.div_add_mod' (e % job.tile_size) job.core_range
  obtain ⟨idx, index⟩ := agent_index job (e / job.tile_size) worker.le
  refine ⟨e / job.tile_size, Nat.div_lt_of_lt_mul (by rwa [Nat.mul_comm, tiles]), _, worker, _,
    Nat.mod_lt _ some_range, by rwa [split'], by rw [split', split], ?_⟩
  rw [AtaxJob.global_compute_core_idx, idx, index, Nat.add_mul, Nat.mul_assoc, width,
    Nat.add_assoc, split', split]

include few_rows few_terms some_term in
/-- **The result**, when all phases are done. -/
theorem stored (whole : job.global_compute_core_num ∣ job.N) {e : Nat} (column : e < job.N) :
    job.before m 4 (.ext .y e) = ∑ k ∈ Finset.range job.M, m (.ext .A (k * job.N + e)) *
      ∑ j ∈ Finset.range job.N, m (.ext .A (k * job.N + j)) * m (.ext .x j) := by
  have teamed := atax_teamed (F := F) few_rows few_terms some_term
  obtain ⟨cluster, small, core, worker, j1, range, inside, split, here⟩ := column_parts whole column
  -- the data mover stores what the core has left
  obtain ⟨idx, dm⟩ := agent_index job cluster le_rfl
  have last : job.before m 4 (.ext .y e) =
      job.before m 3 (.loc .local_y cluster (core * job.core_range + j1)) := by
    refine (teamed.reference_own (m := m) (k := 3) rfl
      (agent_lt small (le_refl job.compute_core_num)) ⟨dm, _, inside, ?_⟩).trans ?_
    · rw [idx, split]
    · rw [code_dm, ← split]
      exact start_1d_value (fun e => .ext .y (cluster * job.tile_size + e))
        (.loc .local_y cluster) (fun _ _ _ _ same => by injection same with _ same; omega) nofun
        inside
  obtain ⟨idx, index⟩ := agent_index job cluster worker.le
  have reduced := teamed.reference_own (m := m) (k := 2) rfl (agent_lt small worker.le)
    (x := .loc .local_y cluster (core * job.core_range + j1)) ⟨by rw [index]; exact worker,
      .inr ⟨j1, range, by rw [idx, index]⟩⟩
  rw [code_compute worker] at reduced
  have value := transposed_value (i := job.agent cluster core) range (job.before m 2)
  rw [here, idx, index] at value
  refine last.trans (reduced.trans (value.trans (Finset.sum_congr rfl fun k row => ?_)))
  have row := Finset.mem_range.mp row
  have kept : job.before m 2 (.loc .local_A cluster (k * job.N + e)) =
      job.before m 1 (.loc .local_A cluster (k * job.N + e)) := by
    refine teamed.reference_keep (k := 1) rfl fun i _ written => ?_
    obtain ⟨_, own | ⟨_, _, here⟩⟩ := written
    · cases own
    · cases here
  rw [kept, (loaded few_rows few_terms some_term m small).1 _ (grid_lt row column),
    multiplied few_rows few_terms some_term m small (Nat.zero_lt_of_lt worker) row]

end Values

/-! ## Every run -/

section Runs

variable {F : Type} [CommSemiring F]

/-- All cores return, `y` is then the product of the transpose with the product, and nothing else in
external memory ever changes. -/
structure Reduces (F : Type) [CommSemiring F] (job : AtaxJob) : Prop where
  completes : (job.atax_job : Program _ (Step _ _ F)).Completes Statement.semantics
  product : ∀ (m : Mem → F) s,
    ((job.atax_job : Program _ (Step _ _ F)).machine Statement.semantics).Reachable
        (Program.start m) s →
      (∀ i < (job.atax_job : Program _ (Step _ _ F)).agents, 4 ≤ (s.place i).1) →
        ∀ e < job.N, s.memory (.ext .y e) =
          ∑ k ∈ Finset.range job.M, m (.ext .A (k * job.N + e)) *
            ∑ j ∈ Finset.range job.N, m (.ext .A (k * job.N + j)) * m (.ext .x j)
  frame : ∀ (m : Mem → F) s,
    ((job.atax_job : Program _ (Step _ _ F)).machine Statement.semantics).Reachable
        (Program.start m) s →
      ∀ z : Mem, z.External → (∀ e < job.N, z ≠ .ext .y e) → s.memory z = m z

/-- In external memory, only columns of `y` are written. -/
theorem external_writes {job : AtaxJob} (whole : job.global_compute_core_num ∣ job.N)
    {p : AtaxPhase} {i : Nat} (agent : i < (job.atax_job : Program _ (Step _ _ F)).agents)
    {s : Step AtaxArray AtaxBuffer F} {z : Mem}
    (member : s ∈ (job.atax_job : Program _ (Step _ _ F)).code p i) (written : s.writes z)
    (outer : z.External) : ∃ e < job.N, z = .ext .y e := by
  simp only [AtaxJob.atax_job] at member
  split at member
  · cases p with
    | load | writeback => cases member
    | multiply =>
      rcases gemv_targets member written with rfl | ⟨_, rfl⟩ <;> exact outer.elim
    | transposed =>
      rcases (transposed_within i s member).2 z written with rfl | ⟨_, _, rfl⟩ <;>
        exact outer.elim
  · cases p with
    | multiply | transposed => cases member
    | load =>
      rcases List.mem_append.mp member with member | member <;>
        obtain ⟨e, _, rfl⟩ := List.mem_map.mp member <;> cases written <;> exact outer.elim
    | writeback =>
      obtain ⟨e, inside, rfl⟩ := List.mem_map.mp member
      refine ⟨_, ?_, written⟩
      have cluster : job.snrt_cluster_idx i < job.cluster_num :=
        Nat.div_lt_of_lt_mul (Nat.mul_comm job.cluster_num _ ▸ agent)
      have factor : job.cluster_num ∣ job.N := Nat.dvd_trans ⟨_, rfl⟩ whole
      have inside := grid_lt cluster (List.mem_range.mp inside)
      rwa [Nat.mul_div_cancel' factor] at inside

/-- **`atax_job` computes both products** on any number of clusters. -/
theorem atax_job_reduces (job : AtaxJob) (few_rows : job.M ≤ 2 ^ 32) (few_terms : job.N ≤ 2 ^ 32)
    (whole : job.global_compute_core_num ∣ job.N) : Reduces F job := by
  refine ⟨Program.completes _ _, fun m s reached ended e column => ?_,
    fun m s reached z outer other => ?_⟩
  · have some_term : 0 < job.N := Nat.zero_lt_of_lt column
    have teamed := atax_teamed (F := F) few_rows few_terms some_term
    obtain ⟨cluster, small, core, worker, _⟩ := column_parts whole column
    rw [teamed.memory_done reached (Nat.zero_lt_of_lt (agent_lt (F := F) small worker.le)) ended]
    exact stored few_rows few_terms some_term m whole column
  · refine Program.reachable_frame reached fun p _ i agent s member written => ?_
    obtain ⟨e, column, here⟩ := external_writes whole agent member written outer
    exact other e column here

/-- **`gemv` multiplies and `atax_job` reduces**, on any number of cores and clusters.  The sizes
are words of 32 bits. -/
theorem gemv_and_atax (num m n : Nat) (trans : Bool) (alpha : F) (incx : Nat) (some_core : 0 < num)
    (some_term : 0 < n) (few_rows : m ≤ 2 ^ 32) (few_terms : n ≤ 2 ^ 32) (job : AtaxJob)
    (job_rows : job.M ≤ 2 ^ 32) (job_terms : job.N ≤ 2 ^ 32)
    (whole : job.global_compute_core_num ∣ job.N) :
    Multiplies num trans m n alpha incx ∧ Reduces F job :=
  ⟨gemv_multiplies some_core some_term few_rows few_terms,
    atax_job_reduces job job_rows job_terms whole⟩

/-- Three cores for two rows, and two clusters of two cores. -/
theorem gemv_and_atax_small :
    Multiplies 3 true 2 5 (7 : ℤ) 0 ∧ Reduces ℤ ⟨3, 8, 2, 2⟩ :=
  gemv_and_atax 3 2 5 true 7 0 (by decide) (by decide) (by decide) (by decide) ⟨3, 8, 2, 2⟩
    (by decide) (by decide) (by decide)

end Runs

end SnitchCluster.Kernels.Atax
