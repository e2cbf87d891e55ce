/-
# Kernels.GemmTilesPhases -- no two cores at one word

`Distributes` says when the tiles of a multiplication are dealt out whole and no buffer is
missing.  Then no core touches in a phase what another writes (`raceFree`), and between phases
that conflict stands a barrier (`guarded`): with double buffering there is none between the
transfer of one tile and the computation of another, but these are about different buffers.
-/
import Mathlib.Tactic.Ring
import SnitchCluster.Kernels.GemmTiles

namespace SnitchCluster.Kernels.GemmTiles

open Theory Theory.Loops Theory.Supersteps

/-- The tiles are dealt out whole, and every buffer that is used is there. -/
structure Distributes (g : GemmArgs) : Prop where
  some_cluster : 0 < g.snrt_cluster_num
  some_core : 0 < g.snrt_cluster_compute_core_num
  some_m_tile : 0 < g.m_tiles
  some_n_tile : 0 < g.n_tiles
  some_k_tile : 0 < g.k_tiles
  m_whole : g.m_tiles ∣ g.m
  n_whole : g.n_tiles ∣ g.n
  k_whole : g.k_tiles ∣ g.k
  ldc : g.ldc = g.n
  one_way : ¬(g.parallelize_m ∧ g.parallelize_k)
  m_dealt : g.parallelize_m → g.snrt_cluster_num ∣ g.m_tiles
  k_dealt : g.parallelize_k → g.k_tiles < g.snrt_cluster_num ∨ g.snrt_cluster_num ∣ g.k_tiles
  k_single : g.parallelize_k → ¬g.double_buffer
  k_reduced : g.parallelize_k → 1 < g.num_working_clusters → g.load_c ∧ g.prec ≠ 1
  alike : ¬g.parallelize_m → ¬g.parallelize_k → g.snrt_cluster_num ≠ 1 →
    g.beta = 0 ∧ (g.load_c ∨ g.k_tiles = 1)
  a_once : g.double_buffer → ¬g.load_a → g.num_tiles 0 ≤ 1
  b_once : g.double_buffer → ¬g.load_b → g.num_tiles 0 ≤ 1
  c_once : g.double_buffer → ¬g.load_c → g.num_tiles 0 ≤ 1
  c_whole : ¬g.load_c → g.m_tiles = 1 ∧ g.n_tiles = 1
  banks : g.partition_banks → g.n_tiles = 1 ∧ g.k_tiles = 1 ∧ ¬g.transb ∧ g.lda = g.k ∧ g.ldb = g.n
  lines : g.partition_banks → g.elems_per_line ∣ g.k ∧ g.elems_per_line ∣ g.n

section Dealt

variable {g : GemmArgs} {c i j r q p mn k : Nat}

section

variable (d : Distributes g)

include d

theorem Distributes.m_eq : g.m_tiles * g.tile_m = g.m :=
  Nat.mul_div_cancel' d.m_whole

theorem Distributes.n_eq : g.n_tiles * g.tile_n = g.n :=
  Nat.mul_div_cancel' d.n_whole

theorem Distributes.k_eq : g.k_tiles * g.tile_k = g.k :=
  Nat.mul_div_cancel' d.k_whole

/-- The working clusters have the same number of tiles, the others have none. -/
theorem Distributes.cluster_k_tiles (cluster : c < g.snrt_cluster_num) :
    g.cluster_k_tiles c = if c < g.num_working_clusters then g.cluster_k_tiles 0 else 0 := by
  unfold GemmArgs.cluster_k_tiles GemmArgs.num_working_clusters
  by_cases parallel : g.parallelize_k = true
  · simp only [parallel, if_true, true_and]
    rcases d.k_dealt parallel with few | whole
    · have none := Nat.div_eq_of_lt few
      have all := Nat.mod_eq_of_lt few
      have some_tile := d.some_k_tile
      simp [none, all, some_tile]
    · obtain ⟨w, split⟩ := whole
      have some_tile := d.some_k_tile
      have quotient : g.k_tiles / g.snrt_cluster_num = w := by
        rw [split, Nat.mul_div_cancel_left w d.some_cluster]
      have rest : g.k_tiles % g.snrt_cluster_num = 0 := by rw [split, Nat.mul_mod_right]
      have some : w ≠ 0 := by
        rintro rfl
        omega
      simp [quotient, rest, some, cluster]
  · simp [parallel, cluster]

theorem Distributes.some_k : 0 < g.cluster_k_tiles 0 := by
  unfold GemmArgs.cluster_k_tiles
  split
  · next parallel =>
      have some_tile := d.some_k_tile
      rcases d.k_dealt parallel with few | whole
      · rw [Nat.mod_eq_of_lt few, if_pos some_tile]
        exact Nat.succ_pos _
      · have some := Nat.div_pos (Nat.le_of_dvd some_tile whole) d.some_cluster
        exact Nat.lt_of_lt_of_le some (Nat.le_add_right _ _)
  · exact d.some_k_tile

theorem Distributes.working_le : g.num_working_clusters ≤ g.snrt_cluster_num := by
  unfold GemmArgs.num_working_clusters
  split
  · exact (Nat.mod_lt _ d.some_cluster).le
  · exact le_rfl

theorem Distributes.some_working : 0 < g.num_working_clusters := by
  have some := d.some_k
  rw [d.cluster_k_tiles d.some_cluster] at some
  by_contra none
  rw [if_neg none] at some
  exact Nat.lt_irrefl 0 some

theorem Distributes.working_k_tiles (working : c < g.num_working_clusters) :
    g.cluster_k_tiles c = g.cluster_k_tiles 0 := by
  rw [d.cluster_k_tiles (Nat.lt_of_lt_of_le working d.working_le), if_pos working]

/-- Only working clusters do anything. -/
theorem Distributes.working_of_active (cluster : c < g.snrt_cluster_num)
    (active : g.Active c mn k) : c < g.num_working_clusters := by
  by_contra idle
  have none := active.1
  rw [d.cluster_k_tiles cluster, if_neg idle] at none
  exact Nat.not_lt_zero k none

theorem Distributes.working_num_tiles (working : c < g.num_working_clusters) :
    g.num_tiles c = g.num_tiles 0 := by
  rw [GemmArgs.num_tiles, d.working_k_tiles working, GemmArgs.num_tiles]

end

theorem iteration_idx_k (inside : k < g.cluster_k_tiles c) :
    g.idx_k c (g.iteration c mn k) = k := grid_mod inside

theorem iteration_idx_mn (inside : k < g.cluster_k_tiles c) :
    g.idx_mn c (g.iteration c mn k) = mn := grid_div inside

theorem idx_k_lt (some : 0 < g.cluster_k_tiles c) : g.idx_k c i < g.cluster_k_tiles c :=
  Nat.mod_lt i some

/-- The iteration of a tile. -/
theorem iteration_idx : g.iteration c (g.idx_mn c i) (g.idx_k c i) = i := by
  rw [GemmArgs.iteration, GemmArgs.idx_mn, GemmArgs.idx_k, Nat.mul_comm]
  exact Nat.div_add_mod i _

/-- With one tile of `k` every cluster has the first. -/
theorem Distributes.idx_k_abs_single (d : Distributes g) (single : g.k_tiles = 1)
    (working : c < g.num_working_clusters) : g.idx_k_abs c i = 0 := by
  have tiles : g.cluster_k_tiles c = 1 := by
    rw [d.working_k_tiles working, GemmArgs.cluster_k_tiles, single]
    split
    · rcases Nat.lt_or_ge 1 g.snrt_cluster_num with more | one
      · simp [Nat.div_eq_of_lt more, Nat.mod_eq_of_lt more]
      · rw [show g.snrt_cluster_num = 1 from Nat.le_antisymm one d.some_cluster]
        rfl
    · rfl
  have first : g.idx_k c i = 0 := by rw [GemmArgs.idx_k, tiles, Nat.mod_one]
  rw [GemmArgs.idx_k_abs, first, tiles, Nat.zero_add]
  split
  · next parallel =>
      rw [Nat.mul_one]
      rw [GemmArgs.num_working_clusters, single] at working
      split at working
      · next few =>
          have below := Nat.mod_le 1 g.snrt_cluster_num
          omega
      · next enough =>
          have one : ¬1 < g.snrt_cluster_num := fun more =>
            enough ⟨parallel, Nat.div_eq_of_lt more⟩
          omega
  · rfl

end Dealt

/-! ## Tiles by row and column

In lines of their own banks or row by row, the words are the same. -/

namespace GemmArgs

variable (g : GemmArgs) (c i : Nat)

/-- Row, column and summand of the whole matrices, of those of a tile. -/
def row (r : Nat) : Nat := g.idx_m_abs c i * g.tile_m + r

def column (q : Nat) : Nat := g.idx_n c i * g.tile_n + q

def summand (p : Nat) : Nat := g.idx_k_abs c i * g.tile_k + p

/-- Where the operand of the product is in its tile, and in its matrix. -/
def localB (p q : Nat) : Nat := if g.transb then q * g.tile_k + p else p * g.tile_n + q

def globalB (p q : Nat) : Nat :=
  if g.transb then g.column c i q * g.ldb + g.summand c i p
  else g.summand c i p * g.ldb + g.column c i q

/-- The accumulator of an element. -/
def acc (r q : Nat) : Loc := g.lc c (g.buff_idx (g.idx_mn c i)) (r * g.tile_n + q)

def elemC (r q : Nat) : Loc := .c (g.copy c) (g.row c i r * g.n + g.column c i q)

/-- No more is added to the tile of `C`. -/
def Complete : Prop := g.idx_k c i = g.cluster_k_tiles c - 1 ∨ ¬g.load_c

instance : Decidable (g.Complete c i) := by
  unfold Complete
  infer_instance

end GemmArgs

section Forms

variable {g : GemmArgs} {c i : Nat}

theorem lineOps_eq {h w : Nat} {op : Nat → Op} :
    lineOps (h * w) op = tileOps h w fun r q => op (r * w + q) := range_grid op

theorem Distributes.tile_n_eq (d : Distributes g) (one : g.n_tiles = 1) : g.tile_n = g.n := by
  rw [← d.n_eq, one, Nat.one_mul]

theorem Distributes.tile_k_eq (d : Distributes g) (one : g.k_tiles = 1) : g.tile_k = g.k := by
  rw [← d.k_eq, one, Nat.one_mul]

theorem column_single (one : g.n_tiles = 1) {q : Nat} : g.column c i q = q := by
  rw [GemmArgs.column, GemmArgs.idx_n, one, Nat.mod_one, Nat.zero_mul, Nat.zero_add]

theorem bankOps_eq {h w : Nat} {op : Nat → Op} (whole : g.elems_per_line ∣ w) :
    bankOps g (h * w) op = tileOps h w fun r q => op (r * w + q) := by
  rw [bankOps, GemmArgs.calculate_partitioned_banks_lines,
    Nat.div_mul_cancel (Dvd.dvd.mul_left whole h), lineOps_eq]

theorem element_eq {w x1 x0 : Nat} (whole : g.partition_banks → g.elems_per_line ∣ w) :
    g.element w x1 x0 = x1 * w + x0 := by
  unfold GemmArgs.element
  split
  · next banked =>
      rw [GemmArgs.calculate_partitioned_banks_lines, Nat.add_mul, Nat.mul_assoc,
        Nat.div_mul_cancel (whole banked), Nat.add_assoc, Nat.div_add_mod']
  · rfl

theorem Distributes.line_n (d : Distributes g) (banked : g.partition_banks) :
    g.elems_per_line ∣ g.tile_n := by
  rw [d.tile_n_eq (d.banks banked).1]
  exact (d.lines banked).2

theorem Distributes.line_k (d : Distributes g) (banked : g.partition_banks) :
    g.elems_per_line ∣ g.tile_k := by
  rw [d.tile_k_eq (d.banks banked).2.1]
  exact (d.lines banked).1

/-- An element of a matrix, by lines and by rows. -/
theorem banked_row {h w a r q : Nat} : a * (h * w) + (r * w + q) = (a * h + r) * w + q := by
  ring

theorem Distributes.elem_banked (d : Distributes g) (banked : g.partition_banks) {r q : Nat} :
    g.idx_m_abs c i * (g.tile_m * g.tile_n) + (r * g.tile_n + q) =
      g.row c i r * g.n + g.column c i q := by
  have one := (d.banks banked).1
  rw [column_single one, ← d.tile_n_eq one]
  exact banked_row

theorem Distributes.elem_plain (d : Distributes g) {r q : Nat} :
    g.idx_n c i * g.tile_n + g.idx_m_abs c i * g.tile_m * g.ldc + (r * g.ldc + q) =
      g.row c i r * g.n + g.column c i q := by
  rw [d.ldc, GemmArgs.row, GemmArgs.column]
  ring

theorem Distributes.storeC_eq (d : Distributes g) :
    storeC g c i =
      if c = 0 ∨ ¬g.parallelize_k then
        tileOps g.tile_m g.tile_n fun r q =>
          .transfer (g.elemC c i r q) (g.acc c i r q) (g.Complete c i)
      else [] := by
  unfold storeC
  refine if_congr Iff.rfl ?_ rfl
  split
  · next banked =>
      rw [bankOps_eq (d.line_n banked)]
      simp only [d.elem_banked banked]
      rfl
  · simp only [d.elem_plain]
    rfl

theorem Distributes.loadA_eq (d : Distributes g) (working : c < g.num_working_clusters) :
    loadA g c i =
      if g.load_a then
        tileOps g.tile_m g.tile_k fun r p =>
          .transfer (.la c (g.buff_idx i) (r * g.tile_k + p))
            (.a (g.a c) (g.row c i r * g.lda + g.summand c i p)) true
      else [] := by
  unfold loadA
  refine if_congr Iff.rfl ?_ rfl
  split
  · next banked =>
      obtain ⟨_, one, _, lda, _⟩ := d.banks banked
      have element : ∀ r p, g.idx_m_abs c i * (g.tile_m * g.tile_k) + (r * g.tile_k + p) =
          g.row c i r * g.lda + g.summand c i p := by
        intro r p
        rw [banked_row, GemmArgs.summand, d.idx_k_abs_single one working, lda, d.tile_k_eq one,
          Nat.zero_mul, Nat.zero_add, GemmArgs.row]
      rw [bankOps_eq (d.line_k banked)]
      simp only [element]
  · have element : ∀ r p, g.idx_k_abs c i * g.tile_k + g.idx_m_abs c i * g.tile_m * g.lda +
        (r * g.lda + p) = g.row c i r * g.lda + g.summand c i p := by
      intro r p
      rw [GemmArgs.row, GemmArgs.summand]
      ring
    simp only [element]

theorem Distributes.loadB_eq (d : Distributes g) :
    loadB g c i =
      if g.load_b then
        if g.transb then
          tileOps g.tile_n g.tile_k fun q p =>
            .transfer (.lb c (g.buff_idx i) (g.localB p q)) (.b (g.globalB c i p q)) true
        else
          tileOps g.tile_k g.tile_n fun p q =>
            .transfer (.lb c (g.buff_idx i) (g.localB p q)) (.b (g.globalB c i p q)) true
      else [] := by
  unfold loadB
  refine if_congr Iff.rfl ?_ rfl
  split
  · next transposed =>
      have element : ∀ q p, g.idx_k_abs c i * g.tile_k + g.idx_n c i * g.tile_n * g.ldb +
          (q * g.ldb + p) = g.globalB c i p q := by
        intro q p
        rw [GemmArgs.globalB, if_pos transposed, GemmArgs.column, GemmArgs.summand]
        ring
      simp only [element, GemmArgs.localB, transposed, if_true]
  · next plain =>
      split
      · next banked =>
          obtain ⟨one, single, _, _, ldb⟩ := d.banks banked
          have element : ∀ p q, g.idx_k_abs c i * (g.tile_k * g.tile_n) + (p * g.tile_n + q) =
              g.globalB c i p q := by
            intro p q
            rw [GemmArgs.globalB, if_neg plain, column_single one, ldb, ← d.tile_n_eq one,
              banked_row, GemmArgs.summand]
          rw [bankOps_eq (d.line_n banked)]
          simp only [element, GemmArgs.localB, if_neg plain]
      · have element : ∀ p q, g.idx_n c i * g.tile_n + g.idx_k_abs c i * g.tile_k * g.ldb +
            (p * g.ldb + q) = g.globalB c i p q := by
          intro p q
          rw [GemmArgs.globalB, if_neg plain, GemmArgs.column, GemmArgs.summand]
          ring
        simp only [element, GemmArgs.localB, if_neg plain]

theorem acc_loaded (loaded : g.load_c) {r q : Nat} :
    g.acc c i r q = .lc c (g.buff_idx (g.idx_mn c i)) (r * g.tile_n + q) :=
  if_neg fun in_place => in_place.1 loaded

theorem Distributes.loadC_eq (d : Distributes g) :
    loadC g c i =
      if g.load_c then
        if g.idx_k_abs c i = 0 then
          tileOps g.tile_m g.tile_n fun r q => .transfer (g.acc c i r q) (g.elemC c i r q) (g.beta ≠ 0)
        else if g.idx_k c i = 0 then
          tileOps g.tile_m g.tile_n fun r q => .clear (g.acc c i r q)
        else []
      else [] := by
  unfold loadC
  split
  · next loaded =>
      simp only [acc_loaded loaded]
      refine if_congr Iff.rfl ?_ (if_congr Iff.rfl ?_ rfl)
      split
      · next banked =>
          rw [bankOps_eq (d.line_n banked)]
          simp only [d.elem_banked banked]
          rfl
      · simp only [d.elem_plain]
        rfl
      · split
        · next banked => exact bankOps_eq (d.line_n banked)
        · exact lineOps_eq
  · rfl

end Forms

/-! ## What a cluster touches -/

section Clusters

variable {g : GemmArgs} {c c' i r q : Nat} {x : Loc}

/-- The words of a cluster: its buffers, and its rows or its copy of `C`. -/
def Owns (g : GemmArgs) (c : Nat) : Loc → Prop
  | .a _ _ | .b _ => False
  | .c w e => w = g.copy c ∧ (g.parallelize_k → c = 0) ∧
      (g.parallelize_m → e / g.n / (g.cluster_m_tiles * g.tile_m) = c)
  | .la c' _ _ | .lb c' _ _ | .lc c' _ _ => c' = c

theorem Owns.unique (own : Owns g c x) (own' : Owns g c' x) : c = c' := by
  cases x with
  | a | b => exact own.elim
  | la | lb | lc => exact own.symm.trans own'
  | c w e =>
    obtain ⟨copy, first, rows⟩ := own
    obtain ⟨copy', first', rows'⟩ := own'
    by_cases by_m : g.parallelize_m = true
    · exact (rows by_m).symm.trans (rows' by_m)
    · by_cases by_k : g.parallelize_k = true
      · exact (first by_k).trans (first' by_k).symm
      · simpa [GemmArgs.copy, by_m, by_k] using copy.symm.trans copy'

theorem idx_m_lt (tile : i < g.num_tiles c) : g.idx_mn c i / g.n_tiles < g.cluster_m_tiles := by
  rw [GemmArgs.num_tiles, Nat.mul_comm] at tile
  have whole : g.idx_mn c i < g.cluster_m_tiles * g.n_tiles := Nat.div_lt_of_lt_mul tile
  rw [Nat.mul_comm] at whole
  exact Nat.div_lt_of_lt_mul whole

theorem Distributes.column_lt (d : Distributes g) (column : q < g.tile_n) :
    g.column c i q < g.n := by
  rw [← d.n_eq]
  exact grid_lt (Nat.mod_lt _ d.some_n_tile) column

/-- The tiles of `C` of a cluster are its own. -/
theorem Distributes.owns_elem (d : Distributes g) (tile : i < g.num_tiles c) (row : r < g.tile_m)
    (column : q < g.tile_n) (first : c = 0 ∨ ¬g.parallelize_k) : Owns g c (g.elemC c i r q) := by
  refine ⟨rfl, fun by_k => first.resolve_right fun not => not by_k, fun by_m => ?_⟩
  rw [grid_div (d.column_lt column), GemmArgs.row, GemmArgs.idx_m_abs, if_pos by_m,
    show (g.idx_mn c i / g.n_tiles + c * g.cluster_m_tiles) * g.tile_m + r =
      c * (g.cluster_m_tiles * g.tile_m) + (g.idx_mn c i / g.n_tiles * g.tile_m + r) by ring]
  exact grid_div (grid_lt (idx_m_lt tile) row)

theorem Distributes.first_of_in_place (d : Distributes g) (in_place : ¬g.load_c)
    (working : c < g.num_working_clusters) : c = 0 ∨ ¬g.parallelize_k := by
  refine or_iff_not_imp_right.mpr fun by_k => ?_
  by_contra other
  exact in_place (d.k_reduced (not_not.mp by_k) (by omega)).1

theorem Distributes.buffer_once (d : Distributes g) (working : c < g.num_working_clusters)
    (once : g.double_buffer → g.num_tiles 0 ≤ 1) (tile : i < g.num_tiles c) :
    g.buff_idx i = 0 := by
  unfold GemmArgs.buff_idx
  split
  · next double =>
      have single := once double
      rw [← d.working_num_tiles working] at single
      obtain rfl : i = 0 := by omega
      rfl
  · rfl

theorem Distributes.acc_unloaded (d : Distributes g) (in_place : ¬g.load_c)
    (working : c < g.num_working_clusters) (tile : i < g.num_tiles c) :
    g.acc c i r q = .c (g.copy c) (r * g.tile_n + q) := by
  have buffer : g.buff_idx (g.idx_mn c i) = 0 :=
    d.buffer_once working (fun double => d.c_once double in_place)
      (Nat.lt_of_le_of_lt (Nat.div_le_self i _) tile)
  exact if_pos ⟨in_place, buffer⟩

theorem idx_m_single (single : g.m_tiles = 1) (tile : i < g.num_tiles c) :
    g.idx_mn c i / g.n_tiles = 0 := by
  have tiles : g.cluster_m_tiles ≤ 1 := by
    unfold GemmArgs.cluster_m_tiles
    rw [single]
    split
    · exact Nat.div_le_self 1 _
    · exact le_rfl
  exact Nat.lt_one_iff.mp (Nat.lt_of_lt_of_le (idx_m_lt tile) tiles)

theorem Distributes.idx_mn_in_place (d : Distributes g) (in_place : ¬g.load_c)
    (tile : i < g.num_tiles c) : g.idx_mn c i = 0 := by
  obtain ⟨m_single, n_single⟩ := d.c_whole in_place
  have first := idx_m_single m_single tile
  rwa [n_single, Nat.div_one] at first

/-- With one tile of `m` there is one cluster that has it. -/
theorem Distributes.row_single (d : Distributes g) (single : g.m_tiles = 1)
    (working : c < g.num_working_clusters) (tile : i < g.num_tiles c) : g.row c i r = r := by
  rw [GemmArgs.row, GemmArgs.idx_m_abs, idx_m_single single tile]
  split
  · next by_m =>
      have one := Nat.le_of_dvd Nat.one_pos (single ▸ d.m_dealt by_m)
      have le := d.working_le
      rw [show c = 0 by omega, Nat.zero_mul, Nat.zero_mul, Nat.zero_add]
  · rw [Nat.zero_mul, Nat.zero_add]

/-- A tile that is not loaded is all of `C`. -/
theorem Distributes.acc_in_place (d : Distributes g) (in_place : ¬g.load_c)
    (working : c < g.num_working_clusters) (tile : i < g.num_tiles c) :
    g.acc c i r q = g.elemC c i r q := by
  obtain ⟨m_single, n_single⟩ := d.c_whole in_place
  rw [d.acc_unloaded in_place working tile, GemmArgs.elemC, d.row_single m_single working tile,
    column_single n_single, d.tile_n_eq n_single]

theorem Distributes.owns_acc (d : Distributes g) (working : c < g.num_working_clusters)
    (tile : i < g.num_tiles c) (row : r < g.tile_m) (column : q < g.tile_n) :
    Owns g c (g.acc c i r q) := by
  by_cases loaded : g.load_c = true
  · rw [acc_loaded loaded]
    rfl
  · rw [d.acc_in_place loaded working tile]
    exact d.owns_elem tile row column (d.first_of_in_place loaded working)

/-- What the data mover reads in an iteration, and what it writes. -/
def MoverReads (g : GemmArgs) (c i : Nat) : Loc → Prop
  | .a _ _ | .b _ => True
  | .c w e => (g.load_c ∨ g.lag + 1 ≤ i) ∧ Owns g c (.c w e)
  | .la _ _ _ | .lb _ _ _ => False
  | .lc c' buff _ => c' = c ∧ g.lag + 1 ≤ i ∧ buff = g.buff_idx (g.idx_mn c (i - (g.lag + 1))) ∧
      g.idx_k c (i - (g.lag + 1)) = g.cluster_k_tiles c - 1

def MoverWrites (g : GemmArgs) (c i : Nat) : Loc → Prop
  | .a _ _ | .b _ => False
  | .c w e => g.lag + 1 ≤ i ∧ Owns g c (.c w e)
  | .la c' buff _ => c' = c ∧ g.load_a ∧ buff = g.buff_idx i
  | .lb c' buff _ => c' = c ∧ buff = g.buff_idx i
  | .lc c' buff _ => c' = c ∧ g.load_c ∧ buff = g.buff_idx (g.idx_mn c i) ∧ g.idx_k c i = 0

/-- What the cores read to compute a tile, and what core `core` writes. -/
def CoreReads (g : GemmArgs) (c i : Nat) : Loc → Prop
  | .a _ _ | .b _ => True
  | .la c' buff _ | .lb c' buff _ => c' = c ∧ buff = g.buff_idx i
  | .c _ _ | .lc _ _ _ => False

def CoreWrites (g : GemmArgs) (c i core : Nat) : Loc → Prop
  | .c w e => ¬g.load_c ∧ Owns g c (.c w e) ∧
      e / g.tile_n % g.snrt_cluster_compute_core_num = core
  | .lc c' buff e => c' = c ∧ buff = g.buff_idx (g.idx_mn c i) ∧
      e / g.tile_n % g.snrt_cluster_compute_core_num = core
  | .a _ _ | .b _ | .la _ _ _ | .lb _ _ _ => False

/-! The lists of steps -/

variable {F : Type} [CommSemiring F] {R W : Loc → Prop} {h w core : Nat} {op : Nat → Nat → Op}

theorem mem_tileOps {o : Op} : o ∈ tileOps h w op ↔ ∃ r < h, ∃ q < w, op r q = o := by
  simp [tileOps]

theorem within_tileOps : (known F).Within R W (tileOps h w op) ↔
    ∀ r < h, ∀ q < w, (∀ x, (op r q).Uses x → R x ∨ W x) ∧ W (op r q).target := by
  simp only [Semantics.Within, mem_tileOps]
  constructor
  · exact fun all r row q column =>
      ⟨(all _ ⟨r, row, q, column, rfl⟩).1, (all _ ⟨r, row, q, column, rfl⟩).2 _ rfl⟩
  · rintro all _ ⟨r, row, q, column, rfl⟩
    refine ⟨(all r row q column).1, ?_⟩
    rintro _ rfl
    exact (all r row q column).2

theorem Distributes.storeC_within (d : Distributes g) (working : c < g.num_working_clusters)
    (before : g.lag + 1 ≤ i) (tile : i - (g.lag + 1) < g.num_tiles c) :
    (known F).Within (MoverReads g c i) (MoverWrites g c i) (storeC g c (i - (g.lag + 1))) := by
  rw [d.storeC_eq]
  split
  · next mine =>
      refine within_tileOps.mpr fun r row q column => ⟨?_, before, d.owns_elem tile row column mine⟩
      rintro x ⟨complete, rfl⟩
      by_cases loaded : g.load_c = true
      · rw [acc_loaded loaded]
        have last := (of_decide_eq_true complete).resolve_right fun not => not loaded
        exact .inl ⟨rfl, before, rfl, last⟩
      · rw [d.acc_in_place loaded working tile]
        exact .inl ⟨.inr before, d.owns_elem tile row column mine⟩
  · exact Semantics.within_nil

theorem Distributes.loadA_within (d : Distributes g) (working : c < g.num_working_clusters) :
    (known F).Within (MoverReads g c i) (MoverWrites g c i) (loadA g c i) := by
  rw [d.loadA_eq working]
  split
  · next loaded =>
      refine within_tileOps.mpr fun r _ p _ => ⟨?_, rfl, loaded, rfl⟩
      rintro x ⟨_, rfl⟩
      exact .inl trivial
  · exact Semantics.within_nil

theorem Distributes.loadB_within (d : Distributes g) :
    (known F).Within (MoverReads g c i) (MoverWrites g c i) (loadB g c i) := by
  have moves : ∀ p q, (∀ x, (Op.transfer (.lb c (g.buff_idx i) (g.localB p q))
      (.b (g.globalB c i p q)) true).Uses x → MoverReads g c i x ∨ MoverWrites g c i x) ∧
      MoverWrites g c i (.lb c (g.buff_idx i) (g.localB p q)) := by
    refine fun p q => ⟨?_, rfl, rfl⟩
    rintro x ⟨_, rfl⟩
    exact .inl trivial
  rw [d.loadB_eq]
  split
  · split
    · exact within_tileOps.mpr fun q _ p _ => moves p q
    · exact within_tileOps.mpr fun p _ q _ => moves p q
  · exact Semantics.within_nil

theorem idx_k_of_abs (first : g.idx_k_abs c i = 0) : g.idx_k c i = 0 :=
  (Nat.add_eq_zero_iff.mp first).1

theorem cluster_of_idx_k_abs (some : 0 < g.cluster_k_tiles c) (first : g.idx_k_abs c i = 0) :
    c = 0 ∨ ¬g.parallelize_k := by
  refine or_iff_not_imp_right.mpr fun by_k => ?_
  have rest := (Nat.add_eq_zero_iff.mp first).2
  rw [if_pos (not_not.mp by_k)] at rest
  exact (Nat.mul_eq_zero.mp rest).resolve_right some.ne'

theorem Distributes.loadC_within (d : Distributes g) (some : 0 < g.cluster_k_tiles c)
    (tile : i < g.num_tiles c) :
    (known F).Within (MoverReads g c i) (MoverWrites g c i) (loadC g c i) := by
  rw [d.loadC_eq]
  split
  · next loaded =>
      have target : g.idx_k c i = 0 → ∀ r q, MoverWrites g c i (g.acc c i r q) := by
        intro first r q
        rw [acc_loaded loaded]
        exact ⟨rfl, loaded, rfl, first⟩
      split
      · next first =>
          refine within_tileOps.mpr fun r row q column => ⟨?_, target (idx_k_of_abs first) r q⟩
          rintro x ⟨_, rfl⟩
          exact .inl ⟨.inl loaded, d.owns_elem tile row column (cluster_of_idx_k_abs some first)⟩
      · split
        · next first =>
            refine within_tileOps.mpr fun r row q column => ⟨?_, target first r q⟩
            rintro x ⟨⟩
        · exact Semantics.within_nil
  · exact Semantics.within_nil

theorem Distributes.transfer_within (d : Distributes g) (working : c < g.num_working_clusters)
    (iter : i < g.num_iters c) :
    (known F).Within (MoverReads g c i) (MoverWrites g c i) (transferCode g c i) := by
  have some : 0 < g.cluster_k_tiles c := by
    rw [d.working_k_tiles working]
    exact d.some_k
  rw [transferCode, Semantics.within_append]
  constructor
  · split
    · next before =>
        refine d.storeC_within working before ?_
        rw [GemmArgs.num_iters] at iter
        omega
    · exact Semantics.within_nil
  · split
    · next tile =>
        rw [Semantics.within_append, Semantics.within_append]
        exact ⟨⟨d.loadA_within working, d.loadB_within⟩, d.loadC_within some tile⟩
    · exact Semantics.within_nil

theorem core_reads_la {e : Nat} : CoreReads g c i (g.la c (g.buff_idx i) e) := by
  unfold GemmArgs.la
  split
  · trivial
  · exact ⟨rfl, rfl⟩

theorem core_reads_lb {e : Nat} : CoreReads g c i (g.lb c (g.buff_idx i) e) := by
  unfold GemmArgs.lb
  split
  · trivial
  · exact ⟨rfl, rfl⟩

/-- The step of an element of the tile. -/
def multiplyTile (g : GemmArgs) (c i r q : Nat) : Op :=
  .multiply (if g.idx_k_abs c i = 0 then g.beta else 1) (g.acc c i r q) g.tile_k
    (fun p => g.la c (g.buff_idx i) (r * g.tile_k + p))
    fun p => g.lb c (g.buff_idx i) (g.localB p q)

theorem Distributes.tileCode_eq (d : Distributes g) : tileCode g c i core =
    (dealtRows g.snrt_cluster_compute_core_num core g.tile_m).flatMap fun r =>
      (List.range g.tile_n).map (multiplyTile g c i r) := by
  simp only [tileCode, element_eq d.line_n, element_eq d.line_k]
  rfl

theorem Distributes.mem_tileCode (d : Distributes g) {o : Op}
    (compute : core < g.snrt_cluster_compute_core_num) :
    o ∈ tileCode g c i core ↔ ∃ r < g.tile_m, r % g.snrt_cluster_compute_core_num = core ∧
      ∃ q < g.tile_n, multiplyTile g c i r q = o := by
  simp only [d.tileCode_eq, List.mem_flatMap, mem_dealtRows compute, List.mem_map, List.mem_range]
  exact ⟨fun ⟨r, ⟨row, dealt⟩, q, column, is⟩ => ⟨r, row, dealt, q, column, is⟩,
    fun ⟨r, row, dealt, q, column, is⟩ => ⟨r, ⟨row, dealt⟩, q, column, is⟩⟩

theorem Distributes.core_writes (d : Distributes g) (working : c < g.num_working_clusters)
    (tile : i < g.num_tiles c) (row : r < g.tile_m) (column : q < g.tile_n) :
    CoreWrites g c i (r % g.snrt_cluster_compute_core_num) (g.acc c i r q) := by
  by_cases loaded : g.load_c = true
  · rw [acc_loaded loaded]
    exact ⟨rfl, rfl, by rw [grid_div column]⟩
  · have own := d.owns_acc working tile row column
    rw [d.acc_unloaded loaded working tile] at own ⊢
    exact ⟨loaded, own, by rw [grid_div column]⟩

theorem Distributes.compute_within (d : Distributes g) (working : c < g.num_working_clusters)
    (tile : i < g.num_tiles c) (compute : core < g.snrt_cluster_compute_core_num) :
    (known F).Within (CoreReads g c i) (CoreWrites g c i core) (tileCode g c i core) := by
  intro o member
  obtain ⟨r, row, rfl, q, column, rfl⟩ := (d.mem_tileCode compute).mp member
  have target := d.core_writes working tile row column
  constructor
  · rintro x (rfl | ⟨p, _, rfl | rfl⟩)
    · exact .inr target
    · exact .inl core_reads_la
    · exact .inl core_reads_lb
  · rintro _ rfl
    exact target

/-! Double buffering -/

/-- With two buffers a tile and the next are in different ones. -/
theorem buff_succ (double : g.double_buffer) {b : Nat} : g.buff_idx (b + 1) ≠ g.buff_idx b := by
  simp only [GemmArgs.buff_idx, if_pos double]
  omega

theorem lag_double (double : g.double_buffer) : g.lag = 1 := if_pos double

theorem grid_next {w j : Nat} (last : j % w = w - 1) (some : 0 < w) :
    (j + 1) / w = j / w + 1 := by
  have whole := Nat.div_add_mod j w
  rw [show j + 1 = (j / w + 1) * w + 0 by rw [Nat.succ_mul, Nat.mul_comm]; omega]
  exact grid_div some

theorem grid_first {w j : Nat} (first : (j + 1) % w = 0) (some : 0 < w) :
    (j + 1) / w = j / w + 1 := by
  refine grid_next ?_ some
  have whole := Nat.div_add_mod j w
  have small := Nat.mod_lt j some
  by_contra inside
  have next : (j / w * w + (j % w + 1)) % w = j % w + 1 := grid_mod (by omega)
  rw [Nat.mul_comm, ← Nat.add_assoc, whole, first] at next
  omega

/-- The data mover and the cores are about different buffers in an iteration. -/
theorem Distributes.apart (d : Distributes g) (double : g.double_buffer)
    (working : c < g.num_working_clusters) (lagged : g.lag ≤ i) (tile : i - g.lag < g.num_tiles c) :
    ∀ x, (MoverWrites g c i x → ¬(CoreReads g c (i - g.lag) x ∨ CoreWrites g c (i - g.lag) core x)) ∧
      (MoverReads g c i x → ¬CoreWrites g c (i - g.lag) core x) := by
  have some : 0 < g.cluster_k_tiles c := by
    rw [d.working_k_tiles working]
    exact d.some_k
  have once : ¬g.load_c → g.num_tiles c ≤ 1 := fun in_place =>
    d.working_num_tiles working ▸ d.c_once double in_place
  rw [lag_double double] at lagged tile ⊢
  obtain ⟨j, rfl⟩ : ∃ j, i = j + 1 := ⟨i - 1, by omega⟩
  rw [Nat.add_sub_cancel] at tile ⊢
  intro x
  cases x with
  | a | b => exact ⟨fun writes => writes.elim, fun _ writes => writes⟩
  | c w e =>
    have early : ¬g.load_c → ¬g.lag + 1 ≤ j + 1 := fun in_place before => by
      have single := once in_place
      rw [lag_double double] at before
      omega
    constructor
    · rintro ⟨before, _⟩ (reads | ⟨in_place, _⟩)
      · exact reads
      · exact early in_place before
    · rintro ⟨loaded | before, _⟩ ⟨in_place, _⟩
      · exact in_place loaded
      · exact early in_place before
  | la c' buff e =>
    refine ⟨?_, fun _ writes => writes⟩
    rintro ⟨_, _, here⟩ (⟨_, there⟩ | writes)
    · exact buff_succ double (here.symm.trans there)
    · exact writes
  | lb c' buff e =>
    refine ⟨?_, fun _ writes => writes⟩
    rintro ⟨_, here⟩ (⟨_, there⟩ | writes)
    · exact buff_succ double (here.symm.trans there)
    · exact writes
  | lc c' buff e =>
    constructor
    · rintro ⟨_, _, here, first⟩ (reads | ⟨_, there, _⟩)
      · exact reads
      · rw [GemmArgs.idx_mn, grid_first first some] at here
        exact buff_succ double (here.symm.trans there)
    · rintro ⟨_, before, here, last⟩ ⟨_, there, _⟩
      rw [lag_double double] at before here last
      obtain ⟨j, rfl⟩ : ∃ j', j = j' + 1 := ⟨j - 1, by omega⟩
      rw [show j + 1 + 1 - (1 + 1) = j by omega] at here last
      rw [GemmArgs.idx_mn, grid_next last some] at there
      exact buff_succ double (there.symm.trans here)

end Clusters

/-! ## No two cores at one word -/

section Program

variable {F : Type} [CommSemiring F] {g : GemmArgs} {p : Phase} {agent other : Nat} {x : Loc}

def Written (g : GemmArgs) (p : Phase) (agent : Nat) (x : Loc) : Prop :=
  let c := agent / g.cores
  let core := agent % g.cores
  match p with
  | .transfer mn k =>
    core = g.snrt_cluster_compute_core_num ∧ g.Active c mn k ∧
      MoverWrites g c (g.iteration c mn k) x
  | .compute mn k =>
    core ≠ g.snrt_cluster_compute_core_num ∧ g.Active c mn k ∧
      (g.lag ≤ g.iteration c mn k ∧ g.iteration c mn k - g.lag < g.num_tiles c) ∧
      CoreWrites g c (g.iteration c mn k - g.lag) core x
  | .gather _ => False
  | .reduce mn =>
    agent = 0 ∧ (reduces g ∧ mn < g.cluster_m_tiles * g.n_tiles) ∧
      ∃ e, x = .lc 0 (g.buff_idx mn) e

def Read (g : GemmArgs) (p : Phase) (agent : Nat) (x : Loc) : Prop :=
  let c := agent / g.cores
  let core := agent % g.cores
  match p with
  | .transfer mn k =>
    core = g.snrt_cluster_compute_core_num ∧ g.Active c mn k ∧
      MoverReads g c (g.iteration c mn k) x
  | .compute mn k =>
    core ≠ g.snrt_cluster_compute_core_num ∧ g.Active c mn k ∧
      (g.lag ≤ g.iteration c mn k ∧ g.iteration c mn k - g.lag < g.num_tiles c) ∧
      CoreReads g c (g.iteration c mn k - g.lag) x
  | .gather _ => False
  | .reduce mn =>
    agent = 0 ∧ (reduces g ∧ mn < g.cluster_m_tiles * g.n_tiles) ∧
      ∃ c < g.num_working_clusters, ∃ e, x = .lc c (g.buff_idx mn) e

theorem cluster_lt (below : agent < g.snrt_cluster_num * g.cores) :
    agent / g.cores < g.snrt_cluster_num :=
  Nat.div_lt_of_lt_mul (by rwa [Nat.mul_comm])

theorem core_lt : agent % g.cores < g.cores := Nat.mod_lt _ (Nat.succ_pos _)

theorem agent_ext (cluster : agent / g.cores = other / g.cores)
    (core : agent % g.cores = other % g.cores) : agent = other := by
  rw [← Nat.div_add_mod agent g.cores, ← Nat.div_add_mod other g.cores, cluster, core]

/-- Tiles that are added up are in the buffers. -/
theorem Distributes.loaded_of_reduces (d : Distributes g) (adds : reduces g) : g.load_c = true := by
  obtain ⟨by_k, _, several⟩ := of_decide_eq_true adds
  exact (d.k_reduced by_k several).1

theorem Distributes.reduce_within (d : Distributes g) {mn : Nat} :
    (known F).Within (Read g (.reduce mn) 0) (Written g (.reduce mn) 0) (reduceCode g mn) := by
  unfold reduceCode
  split
  · next takes_part =>
      have buffer : ∀ c e, g.lc c (g.buff_idx mn) e = .lc c (g.buff_idx mn) e := fun c e =>
        if_neg fun in_place => in_place.1 (d.loaded_of_reduces takes_part.1)
      simp only [lineOps, buffer]
      rw [Semantics.within_map]
      refine fun e _ => ⟨?_, ?_⟩
      · rintro x ⟨c, working, rfl⟩
        exact .inl ⟨rfl, takes_part, c, working, e, rfl⟩
      · rintro x rfl
        exact ⟨rfl, takes_part, e, rfl⟩
  · exact Semantics.within_nil

theorem Distributes.code_within (d : Distributes g) (below : agent < g.snrt_cluster_num * g.cores) :
    (known F).Within (Read g p agent) (Written g p agent) (code g p agent) := by
  have cluster := cluster_lt below
  cases p with
  | transfer mn k =>
    simp only [code]
    split
    · next acts =>
        refine (d.transfer_within (d.working_of_active cluster acts.2) acts.2.2).mono ?_ ?_
        · exact fun x reads => .inl ⟨acts.1, acts.2, reads⟩
        · exact fun x writes => ⟨acts.1, acts.2, writes⟩
    · exact Semantics.within_nil
  | compute mn k =>
    simp only [code]
    split
    · next acts =>
        have compute : agent % g.cores < g.snrt_cluster_compute_core_num :=
          Nat.lt_of_le_of_ne (Nat.le_of_lt_succ core_lt) acts.1
        unfold computeCode
        split
        · next tile =>
            refine (d.compute_within (d.working_of_active cluster acts.2) tile.2 compute).mono ?_ ?_
            · exact fun x reads => .inl ⟨acts.1, acts.2, tile, reads⟩
            · exact fun x writes => ⟨acts.1, acts.2, tile, writes⟩
        · exact Semantics.within_nil
    · exact Semantics.within_nil
  | gather mn => exact Semantics.within_nil
  | reduce mn =>
    simp only [code]
    split
    · next first =>
        subst first
        exact d.reduce_within
    · exact Semantics.within_nil

/-- The matrices that are only read. -/
def Given : Loc → Prop
  | .a _ _ | .b _ => True
  | _ => False

theorem Owns.not_given {c : Nat} (own : Owns g c x) : ¬Given x := by
  cases x with
  | a | b => exact own.elim
  | c | la | lb | lc => exact id

theorem MoverWrites.owns {c i : Nat} (writes : MoverWrites g c i x) : Owns g c x := by
  cases x with
  | a | b => exact writes.elim
  | c => exact writes.2
  | la | lb | lc => exact writes.1

theorem CoreWrites.owns {c i core : Nat} (writes : CoreWrites g c i core x) : Owns g c x := by
  cases x with
  | a | b | la | lb => exact writes.elim
  | c => exact writes.2.1
  | lc => exact writes.1

theorem MoverReads.near {c i : Nat} (reads : MoverReads g c i x) : Given x ∨ Owns g c x := by
  cases x with
  | a | b => exact .inl trivial
  | c => exact .inr reads.2
  | la | lb => exact reads.elim
  | lc => exact .inr reads.1

theorem CoreReads.near {c i : Nat} (reads : CoreReads g c i x) : Given x ∨ Owns g c x := by
  cases x with
  | a | b => exact .inl trivial
  | la | lb => exact .inr reads.1
  | c | lc => exact reads.elim

/-- Two agents at a word that one of them writes are in one cluster. -/
theorem Owns.same_cluster {c c' : Nat} (own : Owns g c x) (near : Given x ∨ Owns g c' x) : c = c' :=
  near.elim (fun given => absurd given own.not_given) own.unique

theorem CoreWrites.same_core {c i core core' : Nat} (writes : CoreWrites g c i core x)
    (touches : CoreReads g c i x ∨ CoreWrites g c i core' x) : core = core' := by
  cases x with
  | a | b | la | lb => exact writes.elim
  | c | lc =>
    rcases touches with reads | writes'
    · exact reads.elim
    · exact writes.2.2.symm.trans writes'.2.2

theorem Distributes.raceFree (d : Distributes g) : (gemm g).RaceFree (known F) := by
  intro p _ agent below other below' apart o member o' member' x writes
  have touches : Read g p other x ∨ Written g p other x → False := by
    have written := (d.code_within (F := F) below o member).2 x writes
    intro touches
    cases p with
    | transfer mn k =>
      obtain ⟨core, _, writes⟩ := written
      have near : Given x ∨ Owns g (other / g.cores) x :=
        touches.elim (fun reads => reads.2.2.near) fun writes => .inr writes.2.2.owns
      have core' : other % g.cores = g.snrt_cluster_compute_core_num :=
        touches.elim (·.1) (·.1)
      exact apart (agent_ext (writes.owns.same_cluster near) (core.trans core'.symm))
    | compute mn k =>
      obtain ⟨_, _, _, writes⟩ := written
      have near : Given x ∨ Owns g (other / g.cores) x :=
        touches.elim (fun reads => reads.2.2.2.near) fun writes => .inr writes.2.2.2.owns
      have cluster := writes.owns.same_cluster near
      simp only [Read, Written, ← cluster] at touches
      refine apart (agent_ext cluster (writes.same_core ?_))
      exact touches.imp (fun reads => reads.2.2.2) fun writes => writes.2.2.2
    | gather mn => exact written
    | reduce mn =>
      have other_zero : other = 0 := touches.elim (·.1) (·.1)
      exact apart (written.1.trans other_zero.symm)
  exact ⟨fun reads => touches ((d.code_within (F := F) below' o' member').1 x reads),
    fun writes' => touches (.inr ((d.code_within (F := F) below' o' member').2 x writes'))⟩

/-! The barriers -/

variable {mn k b b' : Nat}

theorem length_tilePhases : (tilePhases g mn).length = 2 * g.cluster_k_tiles 0 + 2 := by
  simp [tilePhases, List.length_flatMap, Nat.mul_comm]

/-- The phases of a tile of `k`, and those after the last. -/
theorem tilePhases_getElem? (inside : k < g.cluster_k_tiles 0) {r : Nat} (part : r < 2) :
    (tilePhases g mn)[k * 2 + r]? = [Phase.transfer mn k, Phase.compute mn k][r]? := by
  have even : ∀ k, [Phase.transfer mn k, Phase.compute mn k].length = 2 := fun _ => rfl
  rw [tilePhases, List.getElem?_append_left (by rw [length_rounds even]; omega)]
  exact getElem?_rounds even inside part

theorem tilePhases_last {r : Nat} :
    (tilePhases g mn)[g.cluster_k_tiles 0 * 2 + r]? = [Phase.gather mn, Phase.reduce mn][r]? := by
  have even : ∀ k, [Phase.transfer mn k, Phase.compute mn k].length = 2 := fun _ => rfl
  rw [tilePhases, List.getElem?_append_right (by rw [length_rounds even]; omega),
    length_rounds even, Nat.add_sub_cancel_left]

/-- A place in the schedule is a place in the phases of a tile. -/
theorem schedule_getElem? (here : (gemm g).schedule[b]? = some p) :
    ∃ mn < g.cluster_m_tiles * g.n_tiles + 2, ∃ r < 2 * g.cluster_k_tiles 0 + 2, b = mn * (2 * g.cluster_k_tiles 0 + 2) + r ∧
      (∀ r < 2 * g.cluster_k_tiles 0 + 2, (gemm g).schedule[mn * (2 * g.cluster_k_tiles 0 + 2) + r]? =
        (tilePhases g mn)[r]?) ∧ (tilePhases g mn)[r]? = some p := by
  have even : ∀ mn, (tilePhases g mn).length = 2 * g.cluster_k_tiles 0 + 2 := fun _ =>
    length_tilePhases
  have inside := (List.getElem?_eq_some_iff.mp here).1
  rw [show (gemm g).schedule.length = _ from length_rounds even] at inside
  have round : b / (2 * g.cluster_k_tiles 0 + 2) < g.cluster_m_tiles * g.n_tiles + 2 :=
    Nat.div_lt_of_lt_mul (by rwa [Nat.mul_comm])
  have rest : b % (2 * g.cluster_k_tiles 0 + 2) < 2 * g.cluster_k_tiles 0 + 2 :=
    Nat.mod_lt _ (Nat.succ_pos _)
  have split : b = b / (2 * g.cluster_k_tiles 0 + 2) * (2 * g.cluster_k_tiles 0 + 2) +
      b % (2 * g.cluster_k_tiles 0 + 2) := by
    rw [Nat.mul_comm]
    exact (Nat.div_add_mod _ _).symm
  have all : ∀ r < 2 * g.cluster_k_tiles 0 + 2,
      (gemm g).schedule[b / (2 * g.cluster_k_tiles 0 + 2) * (2 * g.cluster_k_tiles 0 + 2) + r]? =
        (tilePhases g (b / (2 * g.cluster_k_tiles 0 + 2)))[r]? :=
    fun r part => getElem?_rounds even round part
  refine ⟨_, round, _, rest, split, all, ?_⟩
  rw [← all _ rest, ← split, here]

/-- A place in the phases of a tile is in a tile of `k`, or after the last. -/
theorem tilePhases_cases {r : Nat} (here : (tilePhases g mn)[r]? = some p) :
    (∃ k < g.cluster_k_tiles 0, r = k * 2 ∧ p = .transfer mn k ∨ r = k * 2 + 1 ∧ p = .compute mn k) ∨
      r = g.cluster_k_tiles 0 * 2 ∧ p = .gather mn ∨
      r = g.cluster_k_tiles 0 * 2 + 1 ∧ p = .reduce mn := by
  have inside := (List.getElem?_eq_some_iff.mp here).1
  rw [length_tilePhases] at inside
  rcases Nat.lt_or_ge (r / 2) (g.cluster_k_tiles 0) with tile | past
  · have split : r = r / 2 * 2 + r % 2 := by omega
    rw [split, tilePhases_getElem? tile (Nat.mod_lt r Nat.two_pos)] at here
    rcases Nat.mod_two_eq_zero_or_one r with first | second
    · rw [first] at here
      exact .inl ⟨r / 2, tile, .inl ⟨by omega, (Option.some.inj here).symm⟩⟩
    · rw [second] at here
      exact .inl ⟨r / 2, tile, .inr ⟨by omega, (Option.some.inj here).symm⟩⟩
  · have split : r = g.cluster_k_tiles 0 * 2 + (r - g.cluster_k_tiles 0 * 2) := by omega
    rw [split, tilePhases_last] at here
    rcases (by omega : r - g.cluster_k_tiles 0 * 2 = 0 ∨ r - g.cluster_k_tiles 0 * 2 = 1) with
      first | second
    · rw [first] at here
      exact .inr (.inl ⟨by omega, (Option.some.inj here).symm⟩)
    · rw [second] at here
      exact .inr (.inr ⟨by omega, (Option.some.inj here).symm⟩)

/-- The computation of a tile is the phase after its transfer. -/
theorem compute_next (here : (gemm g).schedule[b]? = some (.transfer mn k)) :
    (gemm g).schedule[b + 1]? = some (.compute mn k) := by
  obtain ⟨mn', _, r, part, rfl, round, tile⟩ := schedule_getElem? here
  rcases tilePhases_cases tile with ⟨k', inside, ⟨rfl, is⟩ | ⟨_, ⟨⟩⟩⟩ | ⟨_, ⟨⟩⟩ | ⟨_, ⟨⟩⟩
  obtain ⟨rfl, rfl⟩ : mn = mn' ∧ k = k' := by simpa using is
  rw [Nat.add_assoc, round _ (by omega)]
  exact tilePhases_getElem? inside (r := 1) (by omega)

theorem transfer_before (here : (gemm g).schedule[b]? = some (.compute mn k)) :
    ∃ b', b = b' + 1 ∧ (gemm g).schedule[b']? = some (.transfer mn k) := by
  obtain ⟨mn', _, r, part, rfl, round, tile⟩ := schedule_getElem? here
  rcases tilePhases_cases tile with ⟨k', inside, ⟨_, ⟨⟩⟩ | ⟨rfl, is⟩⟩ | ⟨_, ⟨⟩⟩ | ⟨_, ⟨⟩⟩
  obtain ⟨rfl, rfl⟩ : mn = mn' ∧ k = k' := by simpa using is
  refine ⟨_, (Nat.add_assoc _ _ 1).symm, ?_⟩
  rw [round _ (by omega)]
  exact tilePhases_getElem? inside (r := 0) (by omega)

/-- The clusters gather before they add up. -/
theorem gather_before (here : (gemm g).schedule[b]? = some (.reduce mn)) :
    ∃ b', b = b' + 1 ∧ (gemm g).schedule[b']? = some (.gather mn) := by
  obtain ⟨mn', _, r, part, rfl, round, tile⟩ := schedule_getElem? here
  rcases tilePhases_cases tile with ⟨_, _, ⟨_, ⟨⟩⟩ | ⟨_, ⟨⟩⟩⟩ | ⟨_, ⟨⟩⟩ | ⟨rfl, is⟩
  obtain rfl : mn = mn' := by simpa using is
  refine ⟨_, (Nat.add_assoc _ _ 1).symm, ?_⟩
  rw [round _ (by omega)]
  exact tilePhases_last (r := 0)

/-- Who touches something is in a working cluster. -/
theorem Distributes.working_of_touch (d : Distributes g)
    (below : agent < g.snrt_cluster_num * g.cores) (touches : Read g p agent x ∨ Written g p agent x) :
    agent / g.cores < g.num_working_clusters := by
  have cluster := cluster_lt below
  cases p with
  | transfer mn k => exact d.working_of_active cluster (touches.elim (·.2.1) (·.2.1))
  | compute mn k => exact d.working_of_active cluster (touches.elim (·.2.1) (·.2.1))
  | gather mn => exact touches.elim False.elim False.elim
  | reduce mn =>
    have first : agent = 0 := touches.elim (·.1) (·.1)
    rw [first, Nat.zero_div]
    exact d.some_working

/-- One writes what the other touches. -/
def Clash (g : GemmArgs) (p : Phase) (agent : Nat) (p' : Phase) (agent' : Nat) : Prop :=
  ∃ x, Written g p agent x ∧ (Read g p' agent' x ∨ Written g p' agent' x) ∨
    (Read g p agent x ∨ Written g p agent x) ∧ Written g p' agent' x

theorem Distributes.clash (d : Distributes g) (below : agent < g.snrt_cluster_num * g.cores)
    (below' : other < g.snrt_cluster_num * g.cores) {p' : Phase}
    (conflict : (gemm g).Conflict (known F) b agent b' other)
    (here : (gemm g).schedule[b]? = some p) (there : (gemm g).schedule[b']? = some p') :
    Clash g p agent p' other := by
  obtain ⟨o, member, o', member', x, touches⟩ := conflict
  rw [Program.codeAt_eq here] at member
  rw [Program.codeAt_eq there] at member'
  have first := d.code_within (F := F) below o member
  have second := d.code_within (F := F) below' o' member'
  refine ⟨x, touches.imp ?_ ?_⟩
  · exact fun ⟨writes, touches⟩ => ⟨first.2 x writes,
      touches.elim (second.1 x) fun writes => .inr (second.2 x writes)⟩
  · exact fun ⟨touches, writes⟩ =>
      ⟨touches.elim (first.1 x) fun writes => .inr (first.2 x writes), second.2 x writes⟩

theorem Clash.touches {p' : Phase} (clash : Clash g p agent p' other) :
    ∃ x, (Read g p agent x ∨ Written g p agent x) ∧ (Read g p' other x ∨ Written g p' other x) := by
  obtain ⟨x, ⟨writes, touches⟩ | ⟨touches, writes⟩⟩ := clash
  · exact ⟨x, .inr writes, touches⟩
  · exact ⟨x, touches, .inr writes⟩

/-- What is touched but in a reduction. -/
theorem near (tiles : ∀ mn, p ≠ .reduce mn) :
    (Read g p agent x → Given x ∨ Owns g (agent / g.cores) x) ∧
      (Written g p agent x → Owns g (agent / g.cores) x) := by
  cases p with
  | transfer mn k => exact ⟨fun reads => reads.2.2.near, fun writes => writes.2.2.owns⟩
  | compute mn k => exact ⟨fun reads => reads.2.2.2.near, fun writes => writes.2.2.2.owns⟩
  | gather mn => exact ⟨False.elim, False.elim⟩
  | reduce mn => exact absurd rfl (tiles mn)

theorem Clash.same_cluster {p' : Phase} (clash : Clash g p agent p' other)
    (tiles : ∀ mn, p ≠ .reduce mn) (tiles' : ∀ mn, p' ≠ .reduce mn) :
    agent / g.cores = other / g.cores := by
  obtain ⟨x, ⟨writes, touches⟩ | ⟨touches, writes⟩⟩ := clash
  · exact ((near tiles).2 writes).same_cluster
      (touches.elim (near tiles').1 fun writes => .inr ((near tiles').2 writes))
  · exact (((near tiles').2 writes).same_cluster
      (touches.elim (near tiles).1 fun writes => .inr ((near tiles).2 writes))).symm

/-- With double buffering a transfer goes along with the computation in the same iteration. -/
theorem Distributes.no_clash (d : Distributes g) (double : g.double_buffer)
    (below : agent < g.snrt_cluster_num * g.cores) :
    ¬Clash g (.transfer mn k) agent (.compute mn k) other := by
  intro clash
  have cluster := clash.same_cluster (by simp) (by simp)
  have working := d.working_of_touch below (Classical.choose_spec clash.touches).1
  obtain ⟨x, ⟨⟨_, _, writes⟩, touches⟩ | ⟨touches, ⟨_, _, tile, writes⟩⟩⟩ := clash
  · simp only [Read, Written, ← cluster] at touches
    have tile := touches.elim (·.2.2.1) (·.2.2.1)
    exact (d.apart double working tile.1 tile.2 x).1 writes
      (touches.imp (·.2.2.2) (·.2.2.2))
  · rw [← cluster] at tile writes
    rcases touches with ⟨_, _, reads⟩ | ⟨_, _, writes'⟩
    · exact (d.apart double working tile.1 tile.2 x).2 reads writes
    · exact (d.apart double working tile.1 tile.2 x).1 writes' (.inr writes)

/-- **Between conflicting phases stands a barrier.** -/
theorem Distributes.guarded (d : Distributes g) :
    (gemm g).Guarded (known F) fun _ _ _ => false := by
  intro later below' earlier below apart b b' order conflict
  obtain ⟨_, member, _, member', _⟩ := id conflict
  obtain ⟨p, here, _⟩ := Program.mem_codeAt member
  obtain ⟨p', there, _⟩ := Program.mem_codeAt member'
  have clash := d.clash below below' conflict here there
  obtain ⟨x, touches, touches'⟩ := clash.touches
  have working := d.working_of_touch below touches
  have working' := d.working_of_touch below' touches'
  by_cases adds' : ∃ mn, p' = .reduce mn
  · obtain ⟨mn, rfl⟩ := adds'
    obtain ⟨b', rfl, gathered⟩ := gather_before there
    have takes_part := touches'.elim (·.2.1) (·.2.1)
    refine .wait (Nat.le_of_lt_succ order) (Nat.lt_succ_self b') gathered (.inl ?_)
    exact decide_eq_true ⟨takes_part.1, takes_part.2, working', working⟩
  have tiles' : ∀ mn, p' ≠ .reduce mn := fun mn is => adds' ⟨mn, is⟩
  cases p with
  | gather mn => exact touches.elim False.elim False.elim
  | reduce mn =>
    have takes_part := touches.elim (·.2.1) (·.2.1)
    refine .wait le_rfl order here (.inl ?_)
    exact decide_eq_true ⟨takes_part.1, takes_part.2, working', working⟩
  | compute mn k =>
    have cluster := clash.same_cluster (by simp) tiles'
    have active : g.Active (earlier / g.cores) mn k := touches.elim (·.2.1) (·.2.1)
    refine .wait le_rfl order here (.inl ?_)
    exact decide_eq_true ⟨cluster.symm, cluster ▸ active⟩
  | transfer mn k =>
    have cluster := clash.same_cluster (by simp) tiles'
    have active : g.Active (earlier / g.cores) mn k := touches.elim (·.2.1) (·.2.1)
    by_cases double : g.double_buffer = true
    · -- the barrier of the iteration comes after the computation of the tile before
      rcases Nat.eq_or_lt_of_le (show b + 1 ≤ b' from order) with rfl | beyond
      · obtain rfl : p' = .compute mn k := Option.some.inj (there.symm.trans (compute_next here))
        exact absurd clash (d.no_clash double below)
      · refine .wait (Nat.le_succ b) beyond (compute_next here) (.inl ?_)
        exact decide_eq_true ⟨cluster.symm, cluster ▸ active⟩
    · refine .wait le_rfl order here (.inl ?_)
      exact decide_eq_true ⟨double, cluster.symm, cluster ▸ active⟩

end Program

end SnitchCluster.Kernels.GemmTiles
