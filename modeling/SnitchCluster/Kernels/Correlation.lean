/-
# Kernels.Correlation -- gathering the columns in the buffer of one of them

`sw/kernels/misc/correlation/src/correlation.h`: every cluster centres a tile of columns, which
it stores densely, and cluster 0 gathers the tiles in a matrix of full rows, which lies in the
same buffer as its own tile.  `snrt_dma_wait_all` comes after the transfers of all clusters, so
they move their rows in any order: row `n` of the tile of cluster `0` may be overwritten before
it moves.  The matrix is the correlation matrix if each of these rows moves in time, and for
some data only then (`correlation_job_iff`).

Doubles are elements of an ordered field.  A transfer moves rows, each at once.  The tiles of
the buffers do not overlap and sizes do not overflow.
-/
import Mathlib.Analysis.Real.Sqrt
import SnitchCluster.Theory.Loops
import SnitchCluster.Theory.Moves
import SnitchCluster.Theory.Statistics

namespace SnitchCluster.Kernels.Correlation

open Theory.Loops Theory.Moves Theory.Statistics

/-- `correlation_args_t`, and how many clusters and compute cores share the job. -/
structure Sizes where
  N : Nat
  M : Nat
  snrt_cluster_num : Nat
  snrt_cluster_compute_core_num : Nat

def Sizes.tile_M (z : Sizes) : Nat := z.M / z.snrt_cluster_num

/-- Doubles in memory, by buffer and element; `c` is the cluster.  Only cluster 0 uses its
`local_corr`. -/
inductive Loc
  | data (x : Nat)
  | corr (x : Nat)
  | local_data (c x : Nat)
  | local_stddev (c x : Nat)
  | local_corr (x : Nat)
  deriving DecidableEq

abbrev Memory (K : Type) : Type := Loc → K

section Code

open Loc

variable {K : Type}

/-- A row of a transfer: `size` doubles from `src` to `dst`. -/
def moveRow (size : Nat) (dst src : Nat → Loc) : Memory K → Memory K :=
  loop size fun w m => Function.update m (dst w) (m (src w))

variable (z : Sizes)

/-- Row `n` of the tile of cluster `c` (`snrt_dma_load_2d_tile`). -/
def loadRow (c n : Nat) : Memory K → Memory K :=
  moveRow z.tile_M (fun w => local_data c (n * z.tile_M + w))
    (fun w => data (c * z.tile_M + n * z.M + w))

/-- What the transfers into cluster 0 move: row `n` of the tile of cluster `i`
(`snrt_dma_store_2d_tile`), and its deviations (`snrt_dma_store_1d_tile`). -/
inductive Transfer
  | data (i n : Nat)
  | stddev (i : Nat)
  deriving DecidableEq

def Transfer.perform : Transfer → Memory K → Memory K
  | .data i n => moveRow z.tile_M (fun w => local_data 0 (i * z.tile_M + n * z.M + w))
      (fun w => local_data i (n * z.tile_M + w))
  | .stddev i => moveRow z.tile_M (fun w => local_stddev 0 (i * z.tile_M + w))
      (fun w => local_stddev i w)

/-- Between two calls of `snrt_dma_wait_all`, in the order of the source. -/
def transfers : List Transfer :=
  (List.range z.snrt_cluster_num).flatMap fun i =>
    (List.range z.N).map (Transfer.data i) ++ [.stddev i]

/-- The orders in which the rows move. -/
structure Orders where
  load : Nat → List Nat
  gather : List Transfer

structure Orders.Legal (o : Orders) : Prop where
  load : ∀ c < z.snrt_cluster_num, (o.load c).Perm (List.range z.N)
  gather : o.gather.Perm (transfers z)

variable [Field K] (sqrt : K → K)

/-- The body of the loop of step 1 over the columns. -/
def centreColumn (c N M i : Nat) (m : Memory K) : Memory K :=
  let mean := loop N (fun k mean => mean + m (local_data c (k * M + i))) 0 / N
  let accum := loop N (fun k accum => accum +
    (m (local_data c (k * M + i)) - mean) * (m (local_data c (k * M + i)) - mean)) 0
  let m := Function.update m (local_stddev c i) (sqrt (accum / N))
  loop N (fun k m => Function.update m (local_data c (k * M + i))
    (m (local_data c (k * M + i)) - mean)) m

/-- `correlation_step1` on the cores of cluster `c`: they work on columns of their own. -/
def correlation_step1 (c N M : Nat) : Memory K → Memory K :=
  let core_range := M / z.snrt_cluster_compute_core_num
  loop z.snrt_cluster_compute_core_num fun core =>
    let core_offset := core * core_range
    loop core_range fun i1 => centreColumn sqrt c N M (core_offset + i1)

/-- The body of the inner loop of step 2. -/
def correlate (N M i j : Nat) (m : Memory K) : Memory K :=
  let tmp := loop N (fun k tmp =>
    tmp + m (local_data 0 (k * M + i)) * m (local_data 0 (k * M + j))) 0
  let m := Function.update m (local_corr (i * M + j))
    (tmp / (N * m (local_stddev 0 i) * m (local_stddev 0 j)))
  Function.update m (local_corr (j * M + i)) (m (local_corr (i * M + j)))

/-- `correlation_step2` on the cores of cluster 0: an entry is written by the core that has the
larger of its two columns. -/
def correlation_step2 (N M : Nat) : Memory K → Memory K :=
  let core_range := M / z.snrt_cluster_compute_core_num
  loop z.snrt_cluster_compute_core_num fun core =>
    let core_offset := core * core_range
    loop core_range fun i1 =>
      let i := core_offset + i1
      loop (i + 1) fun j => correlate N M i j

/-- Up to the first `snrt_global_barrier` the clusters work on memories of their own. -/
def correlation_job (o : Orders) (m : Memory K) : Memory K :=
  let m := loop z.snrt_cluster_num
    (fun c m => (o.load c).foldl (fun m n => loadRow z c n m) m) m
  let m := loop z.snrt_cluster_num
    (fun c => correlation_step1 z sqrt c z.N z.tile_M) m
  let m := o.gather.foldl (fun m t => t.perform z m) m
  let m := correlation_step2 z z.N z.M m
  loop (z.M * z.M) (fun x m => Function.update m (corr x) (m (local_corr x))) m

end Code

/-! ## Rows as cells -/

section Rows

variable {K : Type} {z : Sizes}

/-- A row that a transfer reads or writes: of the tile of `c` in the data, or of a buffer of
`c` in rows of a tile's width. -/
inductive Cell
  | input (c n : Nat)
  | tile (c b : Nat)
  | dev (c b : Nat)
  deriving DecidableEq

def Cell.word (z : Sizes) (w : Nat) : Cell → Loc
  | .input c n => .data (c * z.tile_M + n * z.M + w)
  | .tile c b => .local_data c (b * z.tile_M + w)
  | .dev c b => .local_stddev c (b * z.tile_M + w)

/-- Word `w` of every row. -/
def words (z : Sizes) (w : Nat) (m : Memory K) : Cell → K := m ∘ Cell.word z w

theorem moveRow_frame {size : Nat} {dst src : Nat → Loc} {l : Loc}
    (apart : ∀ w < size, dst w ≠ l) (m : Memory K) : moveRow size dst src m l = m l :=
  loop_still (fun m : Memory K => m l) fun w inside _ =>
    Function.update_of_ne (apart w inside).symm _ _

theorem Cell.word_inj {w w' : Nat} (inside : w < z.tile_M) (inside' : w' < z.tile_M) {x y : Cell}
    (written : ∀ c n, y ≠ .input c n) (same : x.word z w = y.word z w') : w = w' ∧ x = y := by
  cases y with
  | input c n => exact absurd rfl (written c n)
  | tile c b =>
    cases x with
    | tile c' b' =>
      simp only [word, Loc.local_data.injEq] at same
      obtain ⟨rows, words⟩ := grid_inj inside inside' same.2
      exact ⟨words, by rw [same.1, rows]⟩
    | _ => simp [word] at same
  | dev c b =>
    cases x with
    | dev c' b' =>
      simp only [word, Loc.local_stddev.injEq] at same
      obtain ⟨rows, words⟩ := grid_inj inside inside' same.2
      exact ⟨words, by rw [same.1, rows]⟩
    | _ => simp [word] at same

/-- A row moves word by word. -/
theorem words_moveRow {w : Nat} (inside : w < z.tile_M) {src dst : Cell}
    (written : ∀ c n, dst ≠ .input c n) (m : Memory K) :
    words z w (moveRow z.tile_M (fun w => dst.word z w) (fun w => src.word z w) m) =
      Move.apply ⟨src, dst⟩ (words z w m) := by
  apply loop_once (words z w) (g := Move.apply ⟨src, dst⟩) inside
  · intro i small other m
    funext x
    refine Function.update_of_ne (fun same => ?_) _ _
    exact other (Cell.word_inj inside small written same).1.symm
  · intro m
    funext x
    unfold words Move.apply
    by_cases there : x = dst
    · subst there
      simp
    · rw [Function.update_of_ne there, Function.comp_apply, Function.comp_apply,
        Function.update_of_ne fun same => there (Cell.word_inj inside inside written same).2]

/-- Transfers that move rows one after the other. -/
theorem words_foldl {τ : Type} {perform : τ → Memory K → Memory K} {move : τ → Move Cell}
    {w : Nat} (one : ∀ t m, words z w (perform t m) = (move t).apply (words z w m))
    (order : List τ) (m : Memory K) :
    words z w (order.foldl (fun m t => perform t m) m) = run (order.map move) (words z w m) := by
  induction order generalizing m with
  | nil => rfl
  | cons t order ih => rw [List.foldl_cons, ih, one, List.map_cons, run_cons]

end Rows

/-! ## Step 1 -/

section Centring

variable {K : Type} [Field K] {sqrt : K → K} {z : Sizes}

/-- Column `i` of the tile of cluster `c`, and the place of its deviation. -/
def column (c M i : Nat) (m : Memory K) : (Nat → K) × K :=
  (fun k => m (.local_data c (k * M + i)), m (.local_stddev c i))

/-- What step 1 makes of a column. -/
def centre (sqrt : K → K) (N : Nat) (v : (Nat → K) × K) : (Nat → K) × K :=
  (fun k => if k < N then centred N v.1 k else v.1 k, sqrt (covariance N v.1 v.1))

theorem column_centreColumn {c N M i : Nat} (inside : i < M) (m : Memory K) :
    column c M i (centreColumn sqrt c N M i m) = centre sqrt N (column c M i m) := by
  have mean_eq : loop N (fun k mean => mean + m (.local_data c (k * M + i))) 0 / (N : K) =
      mean N (column c M i m).1 := by
    rw [loop_add, zero_add]
    rfl
  have accum_eq : loop N (fun k accum => accum +
      (m (.local_data c (k * M + i)) - mean N (column c M i m).1) *
        (m (.local_data c (k * M + i)) - mean N (column c M i m).1)) 0 =
      scatter N (column c M i m).1 (column c M i m).1 := by
    rw [loop_add, zero_add]
    rfl
  unfold centreColumn
  simp only [mean_eq, accum_eq]
  refine Prod.ext (funext fun k => ?_) ?_
  · change (loop N _ _ : Memory K) (.local_data c (k * M + i)) = if k < N then _ else _
    by_cases row : k < N
    · rw [if_pos row]
      refine loop_once (fun m : Memory K => m (.local_data c (k * M + i)))
        (g := fun x => x - mean N (column c M i m).1) row ?_ ?_
      · intro l _ other m
        refine Function.update_of_ne (fun same => other ?_) _ _
        exact ((grid_inj inside inside (Loc.local_data.inj same).2).1).symm
      · intro m
        exact Function.update_self _ _ _
    · rw [if_neg row]
      refine loop_still (fun m : Memory K => m (.local_data c (k * M + i))) ?_
      intro l small m
      refine Function.update_of_ne (fun same => row ?_) _ _
      rw [(grid_inj inside inside (Loc.local_data.inj same).2).1]
      exact small
  · change (loop N _ _ : Memory K) (.local_stddev c i) = _
    rw [loop_still (fun m : Memory K => m (.local_stddev c i))
      fun k _ m => Function.update_of_ne (by simp) _ _]
    exact Function.update_self _ _ _

theorem centreColumn_frame {c N M i : Nat} {l : Loc}
    (data : ∀ k < N, Loc.local_data c (k * M + i) ≠ l) (dev : Loc.local_stddev c i ≠ l)
    (m : Memory K) : centreColumn sqrt c N M i m l = m l := by
  unfold centreColumn
  refine (loop_still (fun m : Memory K => m l) fun k small m => ?_).trans ?_
  · exact Function.update_of_ne (data k small).symm _ _
  · exact Function.update_of_ne dev.symm _ _

theorem column_other {c N M i i' : Nat} (inside : i < M) (inside' : i' < M) (other : i' ≠ i)
    (m : Memory K) : column c M i (centreColumn sqrt c N M i' m) = column c M i m := by
  have data (k : Nat) : centreColumn sqrt c N M i' m (.local_data c (k * M + i)) =
      m (.local_data c (k * M + i)) := by
    refine centreColumn_frame (fun l _ same => other ?_) (by simp) m
    exact (grid_inj inside' inside (Loc.local_data.inj same).2).2
  have dev : centreColumn sqrt c N M i' m (.local_stddev c i) = m (.local_stddev c i) := by
    apply centreColumn_frame
    · simp
    · simpa using other
  exact Prod.ext (funext data) dev

/-- **Step 1** centres every column of a tile that the cores share evenly. -/
theorem column_step1 {c N M i : Nat} (even : z.snrt_cluster_compute_core_num ∣ M) (inside : i < M)
    (m : Memory K) :
    column c M i (correlation_step1 z sqrt c N M m) = centre sqrt N (column c M i m) := by
  obtain ⟨q, rfl⟩ := even
  have some := Nat.zero_lt_of_lt inside
  have cores := Nat.pos_of_mul_pos_right some
  have range := Nat.pos_of_mul_pos_left some
  unfold correlation_step1
  rw [Nat.mul_div_cancel_left q cores]
  have place : i / q * q + i % q = i := by
    rw [Nat.mul_comm]
    exact Nat.div_add_mod i q
  refine loop_grid (column c _ i) (k := i / q) (l := i % q) ?_ (Nat.mod_lt i range) ?_ ?_
  · rw [Nat.div_lt_iff_lt_mul range]
    exact inside
  · intro core small i1 below away m
    refine column_other inside (grid_lt small below) (fun same => ?_) m
    rw [← place] at same
    obtain ⟨rfl, rfl⟩ := grid_inj below (Nat.mod_lt i range) same
    simp at away
  · intro m
    rw [place]
    exact column_centreColumn inside m

theorem correlation_step1_frame {c N M : Nat} {l : Loc} (data : ∀ x, l ≠ .local_data c x)
    (dev : ∀ x, l ≠ .local_stddev c x) (m : Memory K) :
    correlation_step1 z sqrt c N M m l = m l := by
  refine loop_still (fun m : Memory K => m l) fun core _ m => ?_
  refine loop_still (fun m : Memory K => m l) fun i1 _ m => ?_
  exact centreColumn_frame (fun k _ => (data _).symm) (dev _).symm m

end Centring

/-! ## Step 2 -/

section Correlating

variable {K : Type} [Field K] {z : Sizes}

/-- What step 2 computes of the matrix `d` and the deviations `s` for columns `i` and `j`. -/
def quotient (N M : Nat) (d s : Nat → K) (i j : Nat) : K :=
  (∑ k ∈ Finset.range N, d (k * M + i) * d (k * M + j)) / (N * s i * s j)

theorem quotient_comm (N M : Nat) (d s : Nat → K) (i j : Nat) :
    quotient N M d s i j = quotient N M d s j i := by
  unfold quotient
  simp only [mul_comm, mul_left_comm]

/-- What step 2 reads, and the two entries for columns `p` and `q`. -/
def entry (M p q : Nat) (m : Memory K) : (Nat → K) × (Nat → K) × K × K :=
  (fun x => m (.local_data 0 x), fun x => m (.local_stddev 0 x), m (.local_corr (p * M + q)),
    m (.local_corr (q * M + p)))

def fill (N M p q : Nat) (v : (Nat → K) × (Nat → K) × K × K) : (Nat → K) × (Nat → K) × K × K :=
  (v.1, v.2.1, quotient N M v.1 v.2.1 p q, quotient N M v.1 v.2.1 p q)

theorem entry_correlate {N M p q : Nat} (m : Memory K) :
    entry M p q (correlate N M p q m) = fill N M p q (entry M p q m) := by
  have value : loop N (fun k tmp =>
      tmp + m (.local_data 0 (k * M + p)) * m (.local_data 0 (k * M + q))) 0 /
        (N * m (.local_stddev 0 p) * m (.local_stddev 0 q)) =
      quotient N M (entry M p q m).1 (entry M p q m).2.1 p q := by
    rw [loop_add, zero_add]
    rfl
  unfold correlate
  simp only [value]
  by_cases diagonal : p * M + q = q * M + p
  · simp [entry, fill, diagonal]
  · simp [entry, fill, diagonal]

theorem entry_other {N M i j p q : Nat} (row : i < M) (lower : j ≤ i) (row' : p < M)
    (lower' : q ≤ p) (other : i ≠ p ∨ j ≠ q) (m : Memory K) :
    entry M p q (correlate N M i j m) = entry M p q m := by
  have column := Nat.lt_of_le_of_lt lower row
  have column' := Nat.lt_of_le_of_lt lower' row'
  have apart : p * M + q ≠ i * M + j ∧ p * M + q ≠ j * M + i ∧ q * M + p ≠ i * M + j ∧
      q * M + p ≠ j * M + i := by
    refine ⟨fun same => ?_, fun same => ?_, fun same => ?_, fun same => ?_⟩
    · have := grid_inj column' column same
      omega
    · have := grid_inj column' row same
      omega
    · have := grid_inj row' column same
      omega
    · have := grid_inj row' row same
      omega
  obtain ⟨a, b, c, d⟩ := apart
  simp [entry, correlate, a, b, c, d]

/-- **Step 2** fills both entries of every pair of columns. -/
theorem entry_step2 {N M p q : Nat} (even : z.snrt_cluster_compute_core_num ∣ M) (row : p < M)
    (lower : q ≤ p) (m : Memory K) :
    entry M p q (correlation_step2 z N M m) = fill N M p q (entry M p q m) := by
  obtain ⟨r, rfl⟩ := even
  have some := Nat.zero_lt_of_lt row
  have cores := Nat.pos_of_mul_pos_right some
  have range := Nat.pos_of_mul_pos_left some
  unfold correlation_step2
  rw [Nat.mul_div_cancel_left r cores]
  have place : p / r * r + p % r = p := by
    rw [Nat.mul_comm]
    exact Nat.div_add_mod p r
  refine loop_grid (entry _ p q) (k := p / r) (l := p % r) ?_ (Nat.mod_lt p range) ?_ ?_
  · rw [Nat.div_lt_iff_lt_mul range]
    exact row
  · intro core small i1 below away m
    refine loop_still (entry _ p q) fun j inside m => ?_
    refine entry_other (grid_lt small below) (Nat.le_of_lt_succ inside) row lower ?_ m
    refine .inl fun same => ?_
    rw [← place] at same
    obtain ⟨rfl, rfl⟩ := grid_inj below (Nat.mod_lt p range) same
    simp at away
  · intro m
    simp only [place]
    refine loop_once (entry _ p q) (Nat.lt_succ_of_le lower) ?_ ?_
    · intro j inside other m
      exact entry_other row (Nat.le_of_lt_succ inside) row lower (.inr other) m
    · intro m
      exact entry_correlate m

theorem corr_step2 {N M i j : Nat} (even : z.snrt_cluster_compute_core_num ∣ M) (row : i < M)
    (col : j < M) (m : Memory K) :
    correlation_step2 z N M m (.local_corr (i * M + j)) =
      quotient N M (fun x => m (.local_data 0 x)) (fun x => m (.local_stddev 0 x)) i j := by
  rcases Nat.le_total j i with lower | upper
  · exact congrArg (fun v => v.2.2.1) (entry_step2 even row lower m)
  · rw [quotient_comm]
    exact congrArg (fun v => v.2.2.2) (entry_step2 even col upper m)

end Correlating

/-! ## The job -/

/-- What the job asks of its sizes. -/
structure Sizes.Shared (z : Sizes) : Prop where
  rows : 1 ≤ z.N
  columns : 0 < z.M
  share : z.snrt_cluster_num * z.snrt_cluster_compute_core_num ∣ z.M

namespace Sizes.Shared

variable {z : Sizes} (h : z.Shared)

include h

theorem clusters : 0 < z.snrt_cluster_num := by
  obtain ⟨q, whole⟩ := h.share
  have columns := h.columns
  rw [whole, Nat.mul_assoc] at columns
  exact Nat.pos_of_mul_pos_right columns

theorem whole : z.snrt_cluster_num * z.tile_M = z.M :=
  Nat.mul_div_cancel' (Dvd.dvd.trans (Nat.dvd_mul_right _ _) h.share)

theorem even : z.snrt_cluster_compute_core_num ∣ z.tile_M := by
  obtain ⟨q, whole⟩ := h.share
  unfold tile_M
  rw [whole, Nat.mul_assoc, Nat.mul_div_cancel_left _ h.clusters]
  exact Nat.dvd_mul_right _ _

theorem evenAll : z.snrt_cluster_compute_core_num ∣ z.M :=
  Dvd.dvd.trans (Nat.dvd_mul_left _ _) h.share

/-- Every column belongs to a tile. -/
theorem column_place {j : Nat} (col : j < z.M) :
    ∃ c w, c < z.snrt_cluster_num ∧ w < z.tile_M ∧ j = c * z.tile_M + w := by
  rw [← h.whole] at col
  have some := Nat.pos_of_mul_pos_left (Nat.zero_lt_of_lt col)
  refine ⟨j / z.tile_M, j % z.tile_M, ?_, Nat.mod_lt j some, ?_⟩
  · rw [Nat.div_lt_iff_lt_mul some]
    exact col
  · rw [Nat.mul_comm, Nat.div_add_mod]

theorem tile_pos : 0 < z.tile_M := by
  have columns := h.columns
  rw [← h.whole] at columns
  exact Nat.pos_of_mul_pos_left columns

end Sizes.Shared

section Transfers

variable {K : Type} {z : Sizes} (h : z.Shared)

def loadMove (c n : Nat) : Move Cell := ⟨.input c n, .tile c n⟩

/-- In rows of a tile's width, row `n` of the matrix holds the rows of the tiles side by side. -/
def Transfer.move (z : Sizes) : Transfer → Move Cell
  | .data i n => ⟨.tile i n, .tile 0 (n * z.snrt_cluster_num + i)⟩
  | .stddev i => ⟨.dev i 0, .dev 0 i⟩

theorem words_loadRow {w : Nat} (inside : w < z.tile_M) (c n : Nat) (m : Memory K) :
    words z w (loadRow z c n m) = (loadMove c n).apply (words z w m) := by
  rw [loadMove, ← words_moveRow inside (by simp) m]
  rfl

include h in
theorem word_matrix (w k i : Nat) :
    (Cell.tile 0 (k * z.snrt_cluster_num + i)).word z w =
      .local_data 0 (k * z.M + (i * z.tile_M + w)) := by
  simp only [Cell.word, ← h.whole]
  congr 1
  ring

include h in
theorem words_perform {w : Nat} (inside : w < z.tile_M) (t : Transfer) (m : Memory K) :
    words z w (t.perform z m) = (t.move z).apply (words z w m) := by
  rw [← words_moveRow inside (by cases t <;> simp [Transfer.move]) m]
  cases t with
  | data i n =>
    simp only [Transfer.perform, Transfer.move, word_matrix h]
    simp only [Cell.word, ← Nat.add_assoc, Nat.add_comm (n * z.M) (i * z.tile_M)]
  | stddev i => simp only [Transfer.perform, Transfer.move, Cell.word, Nat.zero_mul, Nat.zero_add]

theorem mem_transfers {t : Transfer} :
    t ∈ transfers z ↔
      (∃ i < z.snrt_cluster_num, ∃ n < z.N, t = .data i n) ∨
        ∃ i < z.snrt_cluster_num, t = .stddev i := by
  simp only [transfers, List.mem_flatMap, List.mem_range, List.mem_append, List.mem_map,
    List.mem_singleton, eq_comm (a := t)]
  grind

theorem transfers_nodup : (transfers z).Nodup := by
  unfold transfers
  rw [List.nodup_flatMap]
  constructor
  · intro i _
    rw [List.nodup_append]
    refine ⟨List.nodup_range.map fun n n' same => (Transfer.data.inj same).2,
      List.nodup_singleton _, by simp⟩
  · refine List.nodup_range.imp fun {i i'} differ t first second => ?_
    simp only [List.mem_append, List.mem_map, List.mem_singleton] at first second
    rcases first with ⟨n, -, rfl⟩ | rfl <;> rcases second with ⟨n', -, same⟩ | same <;> grind

/-- The destinations are apart. -/
theorem move_dst_inj {t t' : Transfer} (listed : t ∈ transfers z) (listed' : t' ∈ transfers z)
    (same : (t.move z).dst = (t'.move z).dst) : t = t' := by
  rw [mem_transfers] at listed listed'
  rcases listed with ⟨i, tile, n, -, rfl⟩ | ⟨i, -, rfl⟩ <;>
    rcases listed' with ⟨i', tile', n', -, rfl⟩ | ⟨i', -, rfl⟩ <;>
    simp only [Transfer.move, Cell.tile.injEq, Cell.dev.injEq, reduceCtorEq, true_and] at same
  · obtain ⟨rfl, rfl⟩ := grid_inj tile tile' same
    rfl
  · rw [same]

/-- A cluster's load moves its rows in some order. -/
theorem load_rows {c n w : Nat} {order : List Nat} (legal : order.Perm (List.range z.N))
    (row : n < z.N) (inside : w < z.tile_M) (m : Memory K) :
    order.foldl (fun m n => loadRow z c n m) m (.local_data c (n * z.tile_M + w)) =
      m (.data (c * z.tile_M + n * z.M + w)) := by
  have moved := congrFun (words_foldl (words_loadRow inside c) order m) (.tile c n)
  rw [run_eq] at moved
  have source : origin (order.map (loadMove c)) (.tile c n) = .input c n := by
    refine origin_timely (t := n) (legal.nodup_iff.mpr List.nodup_range)
      (legal.mem_iff.mpr (List.mem_range.mpr row)) ?_ ?_
    · intro n' _ same
      exact (Cell.tile.inj same).2
    · intro n' _ same
      cases same
  rw [Function.comp_apply, source] at moved
  exact moved

theorem load_frame {c : Nat} {l : Loc} (other : ∀ x, l ≠ .local_data c x) (order : List Nat)
    (m : Memory K) : order.foldl (fun m n => loadRow z c n m) m l = m l := by
  induction order generalizing m with
  | nil => rfl
  | cons n order ih =>
    rw [List.foldl_cons, ih]
    exact moveRow_frame (fun w _ => (other _).symm) m

end Transfers

/-! ## Before the gathering -/

section Tiles

variable {K : Type} {z : Sizes} {o : Orders}

/-- Column `j` of the data. -/
def feature (z : Sizes) (m : Memory K) (j k : Nat) : K := m (.data (k * z.M + j))

def load (z : Sizes) (o : Orders) : Memory K → Memory K :=
  loop z.snrt_cluster_num fun c m => (o.load c).foldl (fun m n => loadRow z c n m) m

/-- The data `m` is in place, and in `s` the tile of cluster `c` holds its columns. -/
structure Loaded (z : Sizes) (m : Memory K) (c : Nat) (s : Memory K) : Prop where
  data : ∀ x, s (.data x) = m (.data x)
  tile : ∀ n < z.N, ∀ w < z.tile_M,
    s (.local_data c (n * z.tile_M + w)) = m (.data (c * z.tile_M + n * z.M + w))

theorem all_loaded (legal : o.Legal z) (m : Memory K) :
    ∀ c < z.snrt_cluster_num, Loaded z m c (load z o m) := by
  refine loop_each (fun _ s => ∀ x, s (.data x) = m (.data x)) (Loaded z m) ?_ ?_ ?_
    fun _ _ _ => rfl
  · intro i k s _ before x
    rw [load_frame (by simp), before]
  · intro i k s other after
    refine ⟨fun x => ?_, fun n row w inside => ?_⟩
    · rw [load_frame (by simp), after.data]
    · rw [load_frame (by simp [other.symm]), after.tile n row w inside]
  · intro k small s before
    refine ⟨fun x => ?_, fun n row w inside => ?_⟩
    · rw [load_frame (by simp), before]
    · rw [load_rows (legal.load k small) row inside, before]

theorem tiles_loaded (legal : o.Legal z) {c n w : Nat} (tile : c < z.snrt_cluster_num)
    (row : n < z.N) (inside : w < z.tile_M) (m : Memory K) :
    load z o m (.local_data c (n * z.tile_M + w)) = feature z m (c * z.tile_M + w) n := by
  have same : n * z.M + (c * z.tile_M + w) = c * z.tile_M + n * z.M + w := by ring
  rw [(all_loaded legal m c tile).tile n row w inside, feature, same]

variable [Field K] {sqrt : K → K}

def standardize (z : Sizes) (sqrt : K → K) : Memory K → Memory K :=
  loop z.snrt_cluster_num fun c => correlation_step1 z sqrt c z.N z.tile_M

theorem tiles_centred (h : z.Shared) (legal : o.Legal z) {c w : Nat}
    (tile : c < z.snrt_cluster_num) (inside : w < z.tile_M) (m : Memory K) :
    (∀ n < z.N, standardize z sqrt (load z o m) (.local_data c (n * z.tile_M + w)) =
      centred z.N (feature z m (c * z.tile_M + w)) n) ∧
    standardize z sqrt (load z o m) (.local_stddev c w) =
      sqrt (covariance z.N (feature z m (c * z.tile_M + w))
        (feature z m (c * z.tile_M + w))) := by
  have step1 : column c z.tile_M w (standardize z sqrt (load z o m)) =
      centre sqrt z.N (column c z.tile_M w (load z o m)) := by
    refine loop_once (column c z.tile_M w) tile (fun i _ other m => ?_)
      fun m => column_step1 h.even inside m
    refine Prod.ext (funext fun k => ?_) ?_
    · exact correlation_step1_frame (by simp [other.symm]) (by simp) m
    · exact correlation_step1_frame (by simp) (by simp [other.symm]) m
  have rows : ∀ n < z.N, (column c z.tile_M w (load z o m)).1 n =
      feature z m (c * z.tile_M + w) n := fun n row => tiles_loaded legal tile row inside m
  constructor
  · intro n row
    have here := congrFun (congrArg Prod.fst step1) n
    simp only [column, centre, if_pos row] at here
    rw [here]
    exact centred_congr rows row
  · have here := congrArg Prod.snd step1
    simp only [column, centre] at here
    rw [here]
    exact congrArg sqrt (covariance_congr rows rows)

end Tiles

/-! ## The gathering -/

section Gathering

variable {z : Sizes} {o : Orders} (legal : o.Legal z)

/-- Where the gathering takes the rows from. -/
def relocation (z : Sizes) (o : Orders) : Cell → Cell :=
  origin (o.gather.map (Transfer.move z))

/-- Each row of the tile of cluster 0 moves before the transfer that overwrites it. -/
def Intact (z : Sizes) (gather : List Transfer) : Prop :=
  ∀ n < z.N, gather.idxOf (.data 0 n) ≤
    gather.idxOf (.data (n % z.snrt_cluster_num) (n / z.snrt_cluster_num))

instance (z : Sizes) (gather : List Transfer) : Decidable (Intact z gather) := by
  unfold Intact
  infer_instance

include legal in
theorem mem_gather {t : Transfer} :
    t ∈ o.gather ↔
      (∃ i < z.snrt_cluster_num, ∃ n < z.N, t = .data i n) ∨
        ∃ i < z.snrt_cluster_num, t = .stddev i :=
  legal.gather.mem_iff.trans mem_transfers

include legal in
theorem gather_nodup : o.gather.Nodup := legal.gather.nodup_iff.mpr transfers_nodup

include legal in
theorem gather_unique {t : Transfer} (listed : t ∈ o.gather) :
    ∀ s ∈ o.gather, (s.move z).dst = (t.move z).dst → s = t := fun _ member same =>
  move_dst_inj (legal.gather.mem_iff.mp member) (legal.gather.mem_iff.mp listed) same

include legal in
/-- The deviations always arrive. -/
theorem relocation_dev {i : Nat} (tile : i < z.snrt_cluster_num) :
    relocation z o (.dev 0 i) = .dev i 0 := by
  have listed : .stddev i ∈ o.gather := (mem_gather legal).mpr (.inr ⟨i, tile, rfl⟩)
  refine origin_timely (t := .stddev i) (gather_nodup legal) listed (gather_unique legal listed) ?_
  intro s _ same
  cases s with
  | data => cases same
  | stddev j =>
    obtain ⟨rfl, rfl⟩ := Cell.dev.inj same
    exact Nat.le_refl _

include legal in
/-- Every row of the matrix comes from a row of a tile. -/
theorem relocation_tile {i k : Nat} (tile : i < z.snrt_cluster_num) (row : k < z.N) :
    ∃ c < z.snrt_cluster_num, ∃ n < z.N,
      relocation z o (.tile 0 (k * z.snrt_cluster_num + i)) = .tile c n := by
  have listed : .data i k ∈ o.gather := (mem_gather legal).mpr (.inl ⟨i, tile, k, row, rfl⟩)
  obtain ⟨before, earlier, found⟩ := origin_listed (t := .data i k) (gather_nodup legal) listed
    (gather_unique legal listed)
  change relocation z o (.tile 0 (k * z.snrt_cluster_num + i)) = _ at found
  rw [found]
  refine origin_within (fun x => ∃ c < z.snrt_cluster_num, ∃ n < z.N, x = Cell.tile c n)
    ?_ ⟨i, tile, k, row, rfl⟩
  rw [List.forall_mem_map]
  rintro s inside ⟨c, small, n, below, target⟩
  rcases (mem_gather legal).mp (earlier s inside).1 with ⟨c', small', n', below', rfl⟩ | ⟨c', -, rfl⟩
  · exact ⟨c', small', n', below', rfl⟩
  · cases target

include legal in
/-- Tiles of other clusters always arrive, and that of cluster 0 does if its rows are intact. -/
theorem relocation_intact {i k : Nat} (tile : i < z.snrt_cluster_num) (row : k < z.N)
    (intact : i = 0 → o.gather.idxOf (.data 0 k) ≤
      o.gather.idxOf (.data (k % z.snrt_cluster_num) (k / z.snrt_cluster_num))) :
    relocation z o (.tile 0 (k * z.snrt_cluster_num + i)) = .tile i k := by
  have listed : .data i k ∈ o.gather := (mem_gather legal).mpr (.inl ⟨i, tile, k, row, rfl⟩)
  refine origin_timely (t := .data i k) (gather_nodup legal) listed (gather_unique legal listed) ?_
  intro s member same
  rcases (mem_gather legal).mp member with ⟨c, small, n, below, rfl⟩ | ⟨c, small, rfl⟩
  · obtain ⟨zero, place⟩ := Cell.tile.inj same
    subst zero
    have column := grid_mod (k := n) small
    have rows := grid_div (k := n) small
    rw [place] at column rows
    subst column rows
    exact intact rfl
  · cases same

include legal in
/-- A row that is overwritten before it moves is nowhere in the matrix. -/
theorem relocation_lost {n : Nat} (row : n < z.N) (positive : 0 < z.snrt_cluster_num)
    (lost : o.gather.idxOf (.data (n % z.snrt_cluster_num) (n / z.snrt_cluster_num)) <
      o.gather.idxOf (.data 0 n)) (x : Cell) : relocation z o x ≠ .tile 0 n := by
  have column := Nat.mod_lt n positive
  have listed : .data (n % z.snrt_cluster_num) (n / z.snrt_cluster_num) ∈ o.gather :=
    (mem_gather legal).mpr
      (.inl ⟨_, column, _, Nat.lt_of_le_of_lt (Nat.div_le_self _ _) row, rfl⟩)
  refine origin_late (l := .data 0 n) (gather_nodup legal) listed ?_ lost ?_ ?_ x
  · change Cell.tile 0 _ = .tile 0 n
    rw [Nat.mul_comm, Nat.div_add_mod]
  · intro same
    obtain ⟨column, place⟩ := Cell.tile.inj same
    rw [column, place] at lost
    exact Nat.lt_irrefl _ lost
  · intro s _ same
    cases s with
    | data c k =>
      obtain ⟨rfl, rfl⟩ := Cell.tile.inj same
      rfl
    | stddev => cases same

/-- Row 0 of cluster 0 only moves onto itself. -/
theorem relocation_first {x : Cell} (found : relocation z o x = .tile 0 0) : x = .tile 0 0 := by
  refine origin_home ?_ found
  rw [List.forall_mem_map]
  intro s member same
  cases s with
  | data c k =>
    obtain ⟨rfl, rfl⟩ := Cell.tile.inj same
    simp [Transfer.move]
  | stddev => cases same

end Gathering

/-! ## What the job computes -/

section Job

variable {K : Type} [Field K] {sqrt : K → K} {z : Sizes} {o : Orders}

def gather (z : Sizes) (o : Orders) (m : Memory K) : Memory K :=
  o.gather.foldl (fun m t => t.perform z m) m

/-- The memory that step 2 starts from. -/
def gathered (z : Sizes) (sqrt : K → K) (o : Orders) (m : Memory K) : Memory K :=
  gather z o (standardize z sqrt (load z o m))

/-- What step 1 leaves in word `w` of row `n` of tile `c`. -/
def deviation (z : Sizes) (m : Memory K) (w : Nat) : Cell → K
  | .tile c n => centred z.N (feature z m (c * z.tile_M + w)) n
  | _ => 0

variable (h : z.Shared) (legal : o.Legal z)

include h legal

theorem gathered_data {k i w : Nat} (row : k < z.N) (tile : i < z.snrt_cluster_num)
    (inside : w < z.tile_M) (m : Memory K) :
    gathered z sqrt o m (.local_data 0 (k * z.M + (i * z.tile_M + w))) =
      deviation z m w (relocation z o (.tile 0 (k * z.snrt_cluster_num + i))) := by
  have moved := congrFun
    (words_foldl (words_perform h inside) o.gather (standardize z sqrt (load z o m)))
    (.tile 0 (k * z.snrt_cluster_num + i))
  rw [run_eq, words, Function.comp_apply, word_matrix h] at moved
  refine moved.trans ?_
  obtain ⟨c, small, n, below, source⟩ := relocation_tile legal tile row
  change words z w _ (relocation z o _) = _
  rw [source]
  exact (tiles_centred h legal small inside m).1 n below

theorem gathered_stddev {i w : Nat} (tile : i < z.snrt_cluster_num) (inside : w < z.tile_M)
    (m : Memory K) :
    gathered z sqrt o m (.local_stddev 0 (i * z.tile_M + w)) =
      sqrt (covariance z.N (feature z m (i * z.tile_M + w)) (feature z m (i * z.tile_M + w))) := by
  have moved := congrFun
    (words_foldl (words_perform h inside) o.gather (standardize z sqrt (load z o m))) (.dev 0 i)
  rw [run_eq] at moved
  refine moved.trans ?_
  change words z w _ (relocation z o _) = _
  rw [relocation_dev legal tile, words, Function.comp_apply, Cell.word, Nat.zero_mul, Nat.zero_add]
  exact (tiles_centred h legal tile inside m).2

omit legal in
theorem job_corr {i j : Nat} (row : i < z.M) (col : j < z.M) (m : Memory K) :
    correlation_job z sqrt o m (.corr (i * z.M + j)) =
      quotient z.N z.M (fun x => gathered z sqrt o m (.local_data 0 x))
        (fun x => gathered z sqrt o m (.local_stddev 0 x)) i j := by
  rw [← corr_step2 h.evenAll row col]
  change (loop _ _ (correlation_step2 z z.N z.M (gathered z sqrt o m))) _ = _
  generalize correlation_step2 z z.N z.M (gathered z sqrt o m) = s
  refine (loop_each (n := z.M * z.M) (fun x (t : Memory K) => t (.local_corr x) = s (.local_corr x))
    (fun x (t : Memory K) => t (.corr x) = s (.local_corr x)) ?_ ?_ ?_ (fun _ _ => rfl)) _ (grid_lt row col)
  · intro x y t _ before
    simpa using before
  · intro x y t other after
    simpa [other.symm] using after
  · intro x _ t before
    simpa using before

/-- The entry that the job leaves for columns `i` and `j`. -/
def Correlates (z : Sizes) (sqrt : K → K) (o : Orders) (m : Memory K) (i j : Nat) : Prop :=
  correlation_job z sqrt o m (.corr (i * z.M + j)) =
    covariance z.N (feature z m i) (feature z m j) /
      (sqrt (covariance z.N (feature z m i) (feature z m i)) *
        sqrt (covariance z.N (feature z m j) (feature z m j)))

/-- In an order that keeps the rows of cluster 0 intact, every entry is the correlation. -/
theorem correlates_of_intact (intact : Intact z o.gather) {i j : Nat} (row : i < z.M)
    (col : j < z.M) (m : Memory K) : Correlates z sqrt o m i j := by
  have data : ∀ k < z.N, ∀ j < z.M, gathered z sqrt o m (.local_data 0 (k * z.M + j)) =
      centred z.N (feature z m j) k := by
    intro k below j col
    obtain ⟨c, w, tile, inside, rfl⟩ := h.column_place col
    rw [gathered_data h legal below tile inside, relocation_intact legal tile below]
    · rfl
    · rintro rfl
      exact intact k below
  have dev : ∀ j < z.M, gathered z sqrt o m (.local_stddev 0 j) =
      sqrt (covariance z.N (feature z m j) (feature z m j)) := by
    intro j col
    obtain ⟨c, w, tile, inside, rfl⟩ := h.column_place col
    exact gathered_stddev h legal tile inside m
  have sum : ∑ k ∈ Finset.range z.N, gathered z sqrt o m (.local_data 0 (k * z.M + i)) *
        gathered z sqrt o m (.local_data 0 (k * z.M + j)) =
      scatter z.N (feature z m i) (feature z m j) := by
    refine Finset.sum_congr rfl fun k below => ?_
    rw [Finset.mem_range] at below
    rw [data k below i row, data k below j col]
  unfold Correlates
  rw [job_corr h row col, quotient, sum, dev i row, dev j col, covariance_div, mul_assoc]

end Job

/-! ## Rows that move too late -/

section Lost

variable {K : Type} [Field K] {z : Sizes} {o : Orders}

/-- Data whose row `n` stands out, far more in the columns of cluster 0 than in the others. -/
def outlier (z : Sizes) (n : Nat) : Memory K
  | .data x => (if x / z.M = n then 1 else 0) * if x % z.M < z.tile_M then 1 else 1 / (z.N + 1 : K)
  | _ => 0

theorem feature_outlier {n j : Nat} (col : j < z.M) :
    feature z (outlier (K := K) z n) j = fun k =>
      (if k = n then 1 else 0) * if j < z.tile_M then 1 else 1 / (z.N + 1 : K) := by
  funext k
  rw [feature, outlier, grid_div col, grid_mod col]

theorem centred_outlier {n j k : Nat} (lost : n < z.N) (col : j < z.M) :
    centred z.N (feature z (outlier (K := K) z n) j) k =
      ((if k = n then 1 else 0) - 1 / z.N) * if j < z.tile_M then 1 else 1 / (z.N + 1 : K) := by
  rw [feature_outlier col, centred_mul, centred, mean_single lost]

variable [LinearOrder K] [IsStrictOrderedRing K] {sqrt : K → K}

theorem outlier_varies (h : z.Shared) {n : Nat} (lost : n < z.N) (more : 2 ≤ z.N) {j : Nat}
    (col : j < z.M) : ∃ k < z.N, ∃ l < z.N,
      feature z (outlier (K := K) z n) j k ≠ feature z (outlier z n) j l := by
  obtain ⟨l, below, other⟩ : ∃ l < z.N, l ≠ n := by
    rcases Nat.eq_zero_or_pos n with rfl | positive
    · exact ⟨1, more, Nat.one_ne_zero⟩
    · exact ⟨0, h.rows, positive.ne⟩
  refine ⟨n, lost, l, below, ?_⟩
  have scale : (0 : K) < if j < z.tile_M then 1 else 1 / (z.N + 1 : K) := by
    split <;> positivity
  rw [feature_outlier col]
  simpa [other] using scale.ne'

/-- The squared deviations of the rows other than the outlier. -/
theorem deviation_outlier (h : z.Shared) {n c r : Nat} (lost : n < z.N) (more : 2 ≤ z.N)
    (tile : c < z.snrt_cluster_num) (different : c ≠ 0 ∨ r ≠ n) :
    deviation z (outlier (K := K) z n) 0 (.tile c r) ^ 2 ≤ (1 / z.N) ^ 2 ∧
      (c ≠ 0 → deviation z (outlier (K := K) z n) 0 (.tile c r) ^ 2 < (1 / z.N) ^ 2) := by
  have some : (0 : K) < z.N := Nat.cast_pos.mpr h.rows
  have width := h.tile_pos
  have col : c * z.tile_M + 0 < z.M := by
    rw [← h.whole]
    exact grid_lt tile width
  rw [deviation, centred_outlier lost col]
  rcases Nat.eq_zero_or_pos c with rfl | other
  · have away : r ≠ n := different.resolve_left fun no => no rfl
    simp [away, width]
  · have outside : ¬ c * z.tile_M + 0 < z.tile_M := by
      have := Nat.le_mul_of_pos_left z.tile_M other
      omega
    have small : ((if r = n then 1 else 0) - 1 / z.N : K) ^ 2 ≤ 1 := by
      have part : (1 / z.N : K) ≤ 1 := by
        rw [div_le_one some]
        exact Nat.one_le_cast.mpr h.rows
      have positive : (0 : K) < 1 / z.N := by positivity
      split <;> nlinarith
    have scale : (1 / (z.N + 1) : K) ^ 2 < (1 / z.N) ^ 2 := by
      gcongr
      exact lt_add_one _
    rw [if_neg outside, mul_pow]
    have strict := (mul_le_of_le_one_left (sq_nonneg (1 / (z.N + 1) : K)) small).trans_lt scale
    exact ⟨strict.le, fun _ => strict⟩

/-- Where row `n` is lost, the first column of the matrix scatters less than that of the data. -/
theorem lost_scatter (h : z.Shared) (legal : o.Legal z) {n : Nat} (row : n < z.N)
    (more : 2 ≤ z.N) (lost : o.gather.idxOf (.data (n % z.snrt_cluster_num)
      (n / z.snrt_cluster_num)) < o.gather.idxOf (.data 0 n)) :
    ∑ k ∈ Finset.range z.N, deviation z (outlier (K := K) z n) 0
        (relocation z o (.tile 0 (k * z.snrt_cluster_num + 0))) ^ 2 <
      ∑ k ∈ Finset.range z.N, ((if k = n then 1 else 0) - 1 / z.N : K) ^ 2 := by
  have two : (2 : K) ≤ z.N := by exact_mod_cast more
  have some : (0 : K) < z.N := two_pos.trans_le two
  have positive : (0 : K) < 1 / z.N := one_div_pos.mpr some
  have half : (1 / z.N : K) ≤ 1 / 2 := one_div_le_one_div_of_le two_pos two
  -- A single row stands out at least as far below the mean as the others above it.
  have spread (k : Nat) : (1 / z.N : K) ^ 2 ≤ ((if k = n then 1 else 0) - 1 / z.N) ^ 2 := by
    split <;> nlinarith
  have entry (k : Nat) (below : k < z.N) : ∃ c < z.snrt_cluster_num, ∃ r < z.N,
      relocation z o (.tile 0 (k * z.snrt_cluster_num + 0)) = .tile c r ∧ (c ≠ 0 ∨ r ≠ n) := by
    obtain ⟨c, tile, r, inside, source⟩ := relocation_tile legal h.clusters below
    refine ⟨c, tile, r, inside, source, ?_⟩
    by_contra! same
    rw [same.1, same.2] at source
    exact relocation_lost legal row h.clusters lost _ source
  refine Finset.sum_lt_sum (fun k below => ?_) ⟨n, Finset.mem_range.mpr row, ?_⟩
  · obtain ⟨c, tile, r, -, source, different⟩ := entry k (Finset.mem_range.mp below)
    rw [source]
    exact (deviation_outlier h row more tile different).1.trans (spread k)
  · obtain ⟨c, tile, r, inside, source, different⟩ := entry n row
    have bound := deviation_outlier (K := K) h row more tile different
    rw [source]
    rcases Nat.eq_zero_or_pos c with rfl | other
    · -- Row 0 is not lost and nowhere else, so there are rows `0`, `r` and `n`.
      have moved : n ≠ 0 := by
        rintro rfl
        simp at lost
      have first : r ≠ 0 := by
        rintro rfl
        have home := relocation_first source
        have place := (Cell.tile.inj home).2
        rw [Nat.add_zero] at place
        exact Nat.mul_ne_zero moved h.clusters.ne' place
      have third : r ≠ n := different.resolve_left fun no => no rfl
      have three : (3 : K) ≤ z.N := by
        have : 3 ≤ z.N := by omega
        exact_mod_cast this
      have thin : (1 / z.N : K) ≤ 1 / 3 := one_div_le_one_div_of_le three_pos three
      refine bound.1.trans_lt ?_
      rw [if_pos rfl]
      nlinarith
    · exact (bound.2 other.ne').trans_le (spread n)

/-- **A lost row falsifies an entry.** -/
theorem not_correlates (root : ∀ x : K, 0 < x → 0 < sqrt x) (h : z.Shared) (legal : o.Legal z)
    {n : Nat} (row : n < z.N) (more : 2 ≤ z.N)
    (lost : o.gather.idxOf (.data (n % z.snrt_cluster_num) (n / z.snrt_cluster_num)) <
      o.gather.idxOf (.data 0 n)) :
    ¬ Correlates z sqrt o (outlier (K := K) z n) 0 0 := by
  intro correct
  have data (k : Nat) (below : k < z.N) :
      gathered z sqrt o (outlier z n) (.local_data 0 (k * z.M + 0)) =
        deviation z (outlier z n) 0 (relocation z o (.tile 0 (k * z.snrt_cluster_num + 0))) := by
    have value : gathered z sqrt o (outlier z n) _ = _ :=
      gathered_data h legal below h.clusters h.tile_pos (outlier z n)
    rwa [Nat.zero_mul, Nat.zero_add] at value
  have dev : gathered z sqrt o (outlier z n) _ = _ :=
    gathered_stddev h legal h.clusters h.tile_pos (outlier z n)
  rw [Nat.zero_mul, Nat.zero_add] at dev
  have varies := covariance_self_pos (outlier_varies (K := K) h row more h.columns)
  have unit := root _ varies
  unfold Correlates at correct
  rw [job_corr h h.columns h.columns, quotient, dev, covariance_div, mul_assoc] at correct
  have some : (0 : K) < z.N := Nat.cast_pos.mpr h.rows
  have divisor := (mul_pos some (mul_pos unit unit)).ne'
  have sums := (div_left_inj' divisor).mp correct
  refine (lost_scatter (K := K) h legal row more lost).ne ?_
  calc _ = ∑ k ∈ Finset.range z.N, gathered z sqrt o (outlier z n) (.local_data 0 (k * z.M + 0)) *
        gathered z sqrt o (outlier z n) (.local_data 0 (k * z.M + 0)) := by
        refine Finset.sum_congr rfl fun k below => ?_
        rw [data k (Finset.mem_range.mp below), sq]
    _ = scatter z.N (feature z (outlier z n) 0) (feature z (outlier z n) 0) := sums
    _ = _ := by
        refine Finset.sum_congr rfl fun k _ => ?_
        rw [centred_outlier row h.columns, if_pos h.tile_pos, mul_one, sq]

/-- No column is constant. -/
def Varied (z : Sizes) (m : Memory K) : Prop :=
  ∀ j < z.M, ∃ k < z.N, ∃ l < z.N, feature z m j k ≠ feature z m j l

/-- **The job computes the correlation matrix if and only if cluster 0 moves each of its own rows
before it is overwritten.** -/
theorem correlation_job_iff (root : ∀ x : K, 0 < x → 0 < sqrt x ∧ sqrt x ^ 2 = x) (h : z.Shared)
    (legal : o.Legal z) :
    (∀ m : Memory K, Varied z m → ∀ i < z.M, ∀ j < z.M, Correlates z sqrt o m i j) ↔
      Intact z o.gather := by
  constructor
  · intro correct n row
    by_contra! lost
    have moved : n ≠ 0 := by
      rintro rfl
      simp at lost
    have more : 2 ≤ z.N := by omega
    refine not_correlates (fun x positive => (root x positive).1) h legal row more lost ?_
    exact correct _ (fun j col => outlier_varies h row more col) 0 h.columns 0 h.columns
  · intro intact m _ i row j col
    exact correlates_of_intact h legal intact row col m

/-- The order in which the source issues the transfers. -/
def issued (z : Sizes) : Orders := ⟨fun _ => List.range z.N, transfers z⟩

theorem issued_legal (z : Sizes) : (issued z).Legal z :=
  ⟨fun _ _ => List.Perm.refl _, List.Perm.refl _⟩

theorem root_real (x : ℝ) (positive : 0 < x) : 0 < √x ∧ √x ^ 2 = x :=
  ⟨Real.sqrt_pos.mpr positive, Real.sq_sqrt positive.le⟩

/-- Two rows on two clusters, in the order of the source. -/
theorem correlation_job_iff_twoRows : Intact ⟨2, 2, 2, 1⟩ (issued ⟨2, 2, 2, 1⟩).gather ∧
    ∀ m : Memory ℝ, Varied ⟨2, 2, 2, 1⟩ m → ∀ i < 2, ∀ j < 2,
      Correlates ⟨2, 2, 2, 1⟩ Real.sqrt (issued ⟨2, 2, 2, 1⟩) m i j :=
  ⟨by decide, (correlation_job_iff root_real ⟨by decide, by decide, by decide⟩
    (issued_legal _)).mpr (by decide)⟩

/-- Three rows on two clusters, in the order of the source: row 1 of cluster 0 moves onto row 2. -/
theorem row_overwritten :
    Orders.Legal ⟨3, 2, 2, 1⟩ (issued ⟨3, 2, 2, 1⟩) ∧
      Varied ⟨3, 2, 2, 1⟩ (outlier (K := ℝ) ⟨3, 2, 2, 1⟩ 2) ∧
      ¬ Correlates ⟨3, 2, 2, 1⟩ Real.sqrt (issued ⟨3, 2, 2, 1⟩)
        (outlier ⟨3, 2, 2, 1⟩ 2) 0 0 := by
  have shared : Sizes.Shared ⟨3, 2, 2, 1⟩ := ⟨by decide, by decide, by decide⟩
  refine ⟨issued_legal _, fun j col => ?_, ?_⟩
  · exact outlier_varies shared (by decide) (by decide) col
  · exact not_correlates (fun x positive => (root_real x positive).1) shared (issued_legal _)
      (by decide) (by decide) (by decide)

end Lost

end SnitchCluster.Kernels.Correlation
