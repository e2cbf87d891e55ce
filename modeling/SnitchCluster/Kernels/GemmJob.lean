/-
# Kernels.GemmJob -- which configurations of `gemm` work

`Validated` are the configurations that `GemmDataGen.validate` accepts.  Not all of them work:
tiles of `m` that the clusters do not share evenly are partly left out, those of `k` are partly
left out and partly added twice; clusters that do not share their work overwrite each other's; a
preloaded matrix has no second buffer.  `Works` excludes these, and then every run ends with the
product (`gemm_leaves_product`).
-/
import SnitchCluster.Kernels.GemmBuffers
import SnitchCluster.Kernels.GemmTilesProduct

namespace SnitchCluster.Kernels.GemmTiles

open Theory Theory.Supersteps

/-- `GemmDataGen.validate`, as far as the tiles depend on it, and what `emit_header` sets: one
array `a`, and leading dimensions without gaps. -/
structure Validated (g : GemmArgs) : Prop where
  m_tiles : 0 < g.m_tiles ∧ g.m % g.m_tiles = 0
  n_tiles : 0 < g.n_tiles ∧ g.n % g.n_tiles = 0
  k_tiles : 0 < g.k_tiles ∧ g.k % g.k_tiles = 0
  load_a : g.load_a ∨ g.m_tiles = 1 ∧ g.k_tiles = 1
  load_b : g.load_b ∨ g.k_tiles = 1 ∧ g.n_tiles = 1
  load_c : g.load_c ∨ g.m_tiles = 1 ∧ g.n_tiles = 1
  one_way : ¬(g.parallelize_m ∧ g.parallelize_k)
  single : ¬(g.double_buffer ∧ g.parallelize_k)
  beta : g.beta = 0 ∨ g.beta = 1
  contiguous : ¬(g.partition_banks ∧ (g.transb ∨ 1 < g.k_tiles ∨ 1 < g.n_tiles))
  /-- `NUM_CORES` is 8, however many there are. -/
  elements_per_tcdm_line : g.partition_banks → g.k % (8 * 8 / g.prec) = 0 ∧ g.n % (8 * 8 / g.prec) = 0
  double_precision : ¬(g.partition_banks ∧ g.prec ≠ 8)
  reduction : ¬(g.parallelize_k ∧ g.prec = 1)
  a : ∀ c, g.a c = 0
  lda : g.lda = g.k
  ldb : g.ldb = if g.transb then g.k else g.n
  ldc : g.ldc = g.n

/-- What `validate` does not check. -/
structure Works (g : GemmArgs) (t : Tcdm) : Prop where
  m_dealt : g.parallelize_m → g.snrt_cluster_num ∣ g.m_tiles
  k_dealt : g.parallelize_k → g.k_tiles < g.snrt_cluster_num ∨ g.snrt_cluster_num ∣ g.k_tiles
  k_loaded : g.parallelize_k → g.load_c ∨ g.num_working_clusters ≤ 1
  alike : ¬g.parallelize_m → ¬g.parallelize_k → g.snrt_cluster_num ≠ 1 →
    g.beta = 0 ∧ (g.load_c ∨ g.k_tiles = 1)
  a_once : g.double_buffer → g.load_a ∨ g.num_tiles 0 ≤ 1
  b_once : g.double_buffer → g.load_b ∨ g.num_tiles 0 ≤ 1
  c_once : g.double_buffer → g.load_c ∨ g.num_tiles 0 ≤ 1
  c_apart : g.partition_banks → g.load_c
  lines : g.partition_banks →
    g.snrt_cluster_compute_core_num ∣ g.k ∧ g.snrt_cluster_compute_core_num ∣ g.n
  banks : g.partition_banks →
    3 * g.snrt_cluster_compute_core_num ≤ t.bank_per_hyperbank_num ∧
      (t.hyperbank_num = 1 ∨ t.hyperbank_num = 2 ∧
        ∀ x, g.tile_elems x / g.snrt_cluster_compute_core_num * t.hyperbank_width ≤ t.hyperbank_size)

section Job

variable {g : GemmArgs} {t : Tcdm}

theorem Validated.distributes (valid : Validated g) (works : Works g t)
    (some_cluster : 0 < g.snrt_cluster_num) (some_core : 0 < g.snrt_cluster_compute_core_num) :
    Distributes g where
  some_cluster := some_cluster
  some_core := some_core
  some_m_tile := valid.m_tiles.1
  some_n_tile := valid.n_tiles.1
  some_k_tile := valid.k_tiles.1
  m_whole := Nat.dvd_of_mod_eq_zero valid.m_tiles.2
  n_whole := Nat.dvd_of_mod_eq_zero valid.n_tiles.2
  k_whole := Nat.dvd_of_mod_eq_zero valid.k_tiles.2
  ldc := valid.ldc
  one_way := valid.one_way
  m_dealt := works.m_dealt
  k_dealt := works.k_dealt
  k_single by_k double := valid.single ⟨double, by_k⟩
  k_reduced by_k several :=
    ⟨(works.k_loaded by_k).resolve_right (Nat.not_le_of_lt several),
      fun fp8 => valid.reduction ⟨by_k, fp8⟩⟩
  alike := works.alike
  a_once double preloaded := (works.a_once double).resolve_left preloaded
  b_once double preloaded := (works.b_once double).resolve_left preloaded
  c_once double preloaded := (works.c_once double).resolve_left preloaded
  c_whole preloaded := valid.load_c.resolve_left preloaded
  banks banked := by
    have tiled := fun more => valid.contiguous ⟨banked, more⟩
    have plain : ¬g.transb := fun transposed => tiled (.inl transposed)
    have k_tile : ¬1 < g.k_tiles := fun more => tiled (.inr (.inl more))
    have n_tile : ¬1 < g.n_tiles := fun more => tiled (.inr (.inr more))
    have some_n := valid.n_tiles.1
    have some_k := valid.k_tiles.1
    exact ⟨by omega, by omega, plain, valid.lda, by rw [valid.ldb, if_neg plain]⟩
  lines banked := by
    have prec : g.prec = 8 := not_not.mp fun other => valid.double_precision ⟨banked, other⟩
    rw [GemmArgs.elems_per_line, prec, Nat.mul_div_cancel _ (by decide)]
    exact works.lines banked

theorem Validated.banked (valid : Validated g) (works : Works g t) (d : Distributes g)
    (banked : g.partition_banks) : Banked g t where
  some_core := d.some_core
  prec := not_not.mp fun other => valid.double_precision ⟨banked, other⟩
  hyperbanks := (works.banks banked).2.imp_right (·.1)
  banks := (works.banks banked).1
  whole x := by
    have line_n : g.snrt_cluster_compute_core_num ∣ g.tile_n := by
      rw [d.tile_n_eq (d.banks banked).1]
      exact (works.lines banked).2
    have line_k : g.snrt_cluster_compute_core_num ∣ g.tile_k := by
      rw [d.tile_k_eq (d.banks banked).2.1]
      exact (works.lines banked).1
    cases x with
    | a => exact Dvd.dvd.mul_left line_k _
    | b | c => exact Dvd.dvd.mul_left line_n _
  fits two := ((works.banks banked).2.resolve_left (by omega)).2

end Job

/-! ## The matrices at the start -/

section Matrices

variable {F : Type} [CommSemiring F] (g : GemmArgs) (m : Loc → F)

def matrixA (row x : Nat) : F := m (.a 0 (row * g.lda + x))

def matrixB (x column : Nat) : F :=
  m (.b (if g.transb then column * g.ldb + x else x * g.ldb + column))

def matrixC (row column : Nat) : F := m (.c 0 (row * g.ldc + column))

variable {g m}

omit [CommSemiring F] in
theorem Validated.matrices (valid : Validated g) (d : Distributes g) :
    Matrices g (matrixA g m) (matrixB g m) (matrixC g m) m where
  operands c working := {
    a := fun _ i _ r _ p _ => by rw [valid.a]; rfl
    a_preloaded := fun preloaded i tile r _ p _ => by
      obtain ⟨m_single, k_single⟩ := valid.load_a.resolve_left preloaded
      rw [valid.a, matrixA, d.row_single m_single working tile, GemmArgs.summand,
        d.idx_k_abs_single k_single working, d.tile_k_eq k_single, valid.lda, Nat.zero_mul,
        Nat.zero_add]
      rfl
    b := fun _ i _ p _ q _ => rfl
    b_preloaded := fun preloaded i tile p _ q _ => by
      obtain ⟨k_single, n_single⟩ := valid.load_b.resolve_left preloaded
      rw [matrixB, GemmArgs.localB, column_single n_single, GemmArgs.summand,
        d.idx_k_abs_single k_single working, d.tile_k_eq k_single, d.tile_n_eq n_single, valid.ldb,
        Nat.zero_mul, Nat.zero_add]
      split <;> rfl }
  c row _ column _ := by rw [matrixC, valid.ldc]

end Matrices

/-- **Where it works, it computes the product.**  The buffers do not overlap, every run ends, no
core or data mover waits for ever, every step of a core finds the operands of its tile and adds it
to what the cluster's tiles before have added, and in the end all of `C` is the product's. -/
theorem gemm_leaves_product {F : Type} [CommSemiring F] {g : GemmArgs} {t : Tcdm}
    (valid : Validated g) (works : Works g t) (some_cluster : 0 < g.snrt_cluster_num)
    (some_core : 0 < g.snrt_cluster_compute_core_num) (m : Loc → F) :
    (∀ x x' : Matrix, ∀ buff < 2, ∀ buff' < 2, ∀ e < g.tile_elems x, ∀ e' < g.tile_elems x',
      (x, buff, e) ≠ (x', buff', e') →
        g.address t x buff e + g.prec ≤ g.address t x' buff' e' ∨
          g.address t x' buff' e' + g.prec ≤ g.address t x buff e) ∧
    (∀ schedule s, ((gemm g).machine (words F)).run (Program.start m) schedule = some s →
      schedule.length ≤ (gemm g).size) ∧
    ∀ s, ((gemm g).machine (words F)).Reachable (Program.start m) s →
      (∀ agent < (gemm g).agents, ∀ mn k o,
        (gemm g).schedule[(s.place agent).1]? = some (.compute mn k) →
        ((gemm g).code (.compute mn k) agent)[(s.place agent).2]? = some o →
        let c := agent / g.cores
        ∃ j < g.num_tiles c, ∃ r < g.tile_m, ∃ q < g.tile_n,
          g.iteration c mn k = j + g.lag ∧ o = multiplyTile g c j r q ∧
          (∀ p < g.tile_k,
            s.memory (g.la c (g.buff_idx j) (r * g.tile_k + p)) =
              matrixA g m (g.row c j r) (g.summand c j p) ∧
            s.memory (g.lb c (g.buff_idx j) (g.localB p q)) =
              matrixB g m (g.summand c j p) (g.column c j q)) ∧
          o.word s.memory =
            partialSum g (matrixA g m) (matrixB g m) (matrixC g m) c j (g.idx_k c j + 1) r q) ∧
      ((∀ i, (gemm g).step (words F) i s = none) →
        ∀ i < (gemm g).agents, (gemm g).schedule.length ≤ (s.place i).1) ∧
      ((∀ i < (gemm g).agents, (gemm g).schedule.length ≤ (s.place i).1) →
        ∀ row < g.m, ∀ column < g.n, s.memory (.c 0 (row * g.ldc + column)) =
          g.beta * matrixC g m row column +
            ∑ x ∈ Finset.range g.k, matrixA g m row x * matrixB g m x column) := by
  have d := valid.distributes works some_cluster some_core
  refine ⟨fun x x' buff set buff' set' e inside e' inside' other => ?_, fun schedule s ran => ?_,
    fun s reached => ⟨fun agent below mn k o phase action => ?_, fun stuck => ?_, fun through => ?_⟩⟩
  · exact buffers_apart (valid.banked works d) set set' inside inside' other
  · exact Program.run_length ran
  · exact gemm_steps d (valid.matrices d) reached below phase action
  · exact (Program.fits_of_reachable reached).through stuck
  · intro row inside column inside'
    rw [valid.ldc]
    exact gemm_product d (valid.matrices d) reached through row inside column inside'

/-- Two clusters with a row each, and every buffer twice. -/
def twoRows : GemmArgs where
  prec := 8
  m_tiles := 2
  n_tiles := 1
  k_tiles := 1
  parallelize_m := true
  parallelize_k := false
  load_a := true
  load_b := true
  load_c := true
  double_buffer := true
  partition_banks := false
  transb := true
  m := 2
  n := 1
  k := 2
  a _ := 0
  lda := 2
  ldb := 2
  beta := 1
  ldc := 1
  snrt_cluster_num := 2
  snrt_cluster_compute_core_num := 1

/-- `A` is 0 1, 2 3 and `B` is 0 1. -/
def counting : Loc → Nat
  | .a _ e | .b e => e
  | _ => 0

theorem gemm_leaves_product_twoRows :
    Validated twoRows ∧ Works twoRows ⟨0, 131072, 32, 1, 0⟩ ∧
      ∀ s, ((gemm twoRows).machine (words Nat)).Reachable (Program.start counting) s →
        (∀ i < 4, (gemm twoRows).schedule.length ≤ (s.place i).1) → s.memory (.c 0 1) = 3 := by
  have valid : Validated twoRows := by
    constructor <;> first | exact fun _ => rfl | decide
  have works : Works twoRows ⟨0, 131072, 32, 1, 0⟩ := by
    constructor <;> first | decide | exact fun banked => nomatch banked
  refine ⟨valid, works, fun s reached through => ?_⟩
  exact ((gemm_leaves_product valid works (by decide) (by decide) counting).2.2 s reached).2.2
    through 1 (by decide) 0 (by decide)

/-- Three tiles of `k` for two clusters. -/
def threeTiles : GemmArgs where
  prec := 8
  m_tiles := 1
  n_tiles := 1
  k_tiles := 3
  parallelize_m := false
  parallelize_k := true
  load_a := true
  load_b := true
  load_c := true
  double_buffer := false
  partition_banks := false
  transb := false
  m := 1
  n := 1
  k := 3
  a _ := 0
  lda := 3
  ldb := 1
  beta := 0
  ldc := 1
  snrt_cluster_num := 2
  snrt_cluster_compute_core_num := 1

/-- One agent after the other, as far as each can go. -/
def threeTiles_run : List Nat :=
  [1, 1, 1, 0, 0, 1, 0, 1, 1, 1, 1, 0, 0, 1, 0, 1, 3, 3, 3, 2, 2, 3, 2, 2, 2, 3, 3, 3, 0, 0,
   1, 2, 3, 0, 1, 1, 0, 1, 0, 0, 0, 0, 0, 0, 0, 0, 0, 0, 0, 1, 1, 1, 1, 1, 1, 1, 1, 1, 1, 1,
   2, 3, 2, 3, 2, 2, 2, 2, 2, 2, 2, 2, 2, 2, 2, 3, 3, 3, 3, 3, 3, 3, 3, 3, 3, 3]

/-- The second cluster starts from its first tile by its own number of tiles: tile 1 is added
twice and tile 2 never. -/
theorem threeTiles_leaves_out :
    Validated threeTiles ∧ ∃ s,
      ((gemm threeTiles).machine (words Nat)).Reachable (Program.start counting) s ∧
      (∀ i < (gemm threeTiles).agents, (gemm threeTiles).schedule.length ≤ (s.place i).1) ∧
      s.memory (.c 0 0) ≠ threeTiles.beta * matrixC threeTiles counting 0 0 +
        ∑ x ∈ Finset.range threeTiles.k,
          matrixA threeTiles counting 0 x * matrixB threeTiles counting x 0 := by
  have ran : (((gemm threeTiles).machine (words Nat)).run (Program.start counting)
      threeTiles_run).any (fun s => decide ((∀ i < (gemm threeTiles).agents,
        (gemm threeTiles).schedule.length ≤ (s.place i).1) ∧ s.memory (.c 0 0) = 2)) = true := by
    decide
  obtain ⟨s, ran, ended⟩ := (Option.any_eq_true _ _).mp ran
  obtain ⟨through, value⟩ := of_decide_eq_true ended
  refine ⟨by constructor <;> first | exact fun _ => rfl | decide, s, Interleaving.reachable_run _ _ ran, through, ?_⟩
  rw [value]
  decide

end SnitchCluster.Kernels.GemmTiles
