/-
# Kernels.GemmTilesProduct -- the tiles add up to the product

What is known of a word after each phase of `gemm`, with the phases one after the other: the
tiles of the operands when they are computed with, the accumulator after each tile of `k`, the
elements of `C` before they are loaded and after they are stored for the last time (`Inv`).  An
iteration keeps this (`Inv.next`), and in the end every element of `C` is known to be the
product's (`product_known`).  Since the cores do not race and what is known is so, a finished run
leaves the product, whatever the order of its steps (`gemm_product`).
-/
import SnitchCluster.Kernels.GemmTilesPhases

namespace SnitchCluster.Kernels.GemmTiles

open Theory Theory.Loops Theory.Supersteps

/-! ## Lists of steps -/

section Lists

variable {F : Type} [CommSemiring F] {g : GemmArgs} {c i r q p core : Nat} {x : Loc} {o : Op}
  {m : Loc → Option F}

/-- What a step uses is not written before it, where no other writes its word. -/
theorem uses_kept {before later : List Op} (apart : ((before ++ o :: later).map Op.target).Nodup)
    (unread : ∀ o' ∈ before, o.Uses o'.target → o'.target = o.target) (uses : o.Uses x) :
    after (known F).run before m x = m x := by
  rw [List.map_append, List.map_cons, List.nodup_append] at apart
  refine after_frame fun o' there here => ?_
  rw [show x = o'.target from here] at uses
  exact apart.2.2 _ (List.mem_map_of_mem there) _ List.mem_cons_self (unread o' there uses)

/-- The word that one step of a list writes, where no step writes what this one uses. -/
theorem after_member {os : List Op} (member : o ∈ os) (apart : (os.map Op.target).Nodup)
    (unread : ∀ o' ∈ os, o.Uses o'.target → o'.target = o.target) :
    after (known F).run os m o.target = o.known m := by
  obtain ⟨before, later, rfl⟩ := List.append_of_mem member
  have fresh : o.target ∉ later.map Op.target := by
    rw [List.map_append, List.map_cons, List.nodup_append] at apart
    exact (List.nodup_cons.mp apart.2.1).1
  rw [after_append, after_cons, after_frame fun o' there here =>
    fresh (List.mem_map.mpr ⟨o', there, (show o.target = o'.target from here).symm⟩)]
  rw [show (known F).run o (after (known F).run before m) o.target =
    o.known (after (known F).run before m) from Function.update_self _ _ _]
  exact o.known_congr fun x uses => uses_kept apart
    (fun o' there => unread o' (List.mem_append_left _ there)) uses

theorem nodup_targets {rows : List Nat} {w : Nat} {op : Nat → Nat → Op} (nodup : rows.Nodup)
    (inj : ∀ r ∈ rows, ∀ q < w, ∀ r' ∈ rows, ∀ q' < w, (op r q).target = (op r' q').target →
      r = r' ∧ q = q') :
    ((rows.flatMap fun r => (List.range w).map (op r)).map Op.target).Nodup := by
  rw [List.map_flatMap, List.nodup_flatMap]
  constructor
  · intro r row
    rw [List.map_map]
    exact List.Nodup.map_on (fun q column q' column' same =>
      (inj r row q (List.mem_range.mp column) r row q' (List.mem_range.mp column') same).2)
      List.nodup_range
  · refine nodup.pairwise_of_forall_ne fun r row r' row' other => ?_
    intro x here there
    simp only [List.mem_map, List.mem_range] at here there
    obtain ⟨_, ⟨q, column, rfl⟩, rfl⟩ := here
    obtain ⟨_, ⟨q', column', rfl⟩, same⟩ := there
    exact other (inj r row q column r' row' q' column' same.symm).1

/-- The word of a step of a tile, each step with its own and none with what others use. -/
theorem after_tile {h w : Nat} (op : Nat → Nat → Op)
    (inj : ∀ r < h, ∀ q < w, ∀ r' < h, ∀ q' < w, (op r q).target = (op r' q').target →
      r = r' ∧ q = q')
    (unread : ∀ r q r' q', (op r q).Uses (op r' q').target → (op r' q').target = (op r q).target)
    (row : r < h) (column : q < w) :
    after (known F).run (tileOps h w op) m (op r q).target = (op r q).known m := by
  refine after_member (mem_tileOps.mpr ⟨r, row, q, column, rfl⟩) ?_ ?_
  · exact nodup_targets List.nodup_range fun r row q column r' row' q' column' =>
      inj r (List.mem_range.mp row) q column r' (List.mem_range.mp row') q' column'
  · rintro _ member
    obtain ⟨r', _, q', _, rfl⟩ := mem_tileOps.mp member
    exact unread r q r' q'

theorem after_tile_frame {h w : Nat} {op : Nat → Nat → Op}
    (other : ∀ r < h, ∀ q < w, x ≠ (op r q).target) :
    after (known F).run (tileOps h w op) m x = m x := by
  refine after_frame fun o member here => ?_
  obtain ⟨r, row, q, column, rfl⟩ := mem_tileOps.mp member
  exact other r row q column here

/-! The transfers -/

theorem Distributes.load_la (d : Distributes g) (working : c < g.num_working_clusters)
    (loaded : g.load_a) (row : r < g.tile_m) (inside : p < g.tile_k) :
    after (known F).run (loadA g c i) m (.la c (g.buff_idx i) (r * g.tile_k + p)) =
      m (.a (g.a c) (g.row c i r * g.lda + g.summand c i p)) := by
  rw [d.loadA_eq working, if_pos loaded]
  refine (after_tile (fun r p => .transfer (.la c (g.buff_idx i) (r * g.tile_k + p))
    (.a (g.a c) (g.row c i r * g.lda + g.summand c i p)) true) ?_ ?_ row inside).trans rfl
  · intro r _ p inside r' _ p' inside' same
    injection same with _ _ same
    exact grid_inj inside inside' same
  · rintro r p r' p' ⟨_, ⟨⟩⟩

theorem Distributes.loadA_frame (d : Distributes g) (working : c < g.num_working_clusters)
    (other : ∀ e, x ≠ .la c (g.buff_idx i) e) : after (known F).run (loadA g c i) m x = m x := by
  rw [d.loadA_eq working]
  split
  · exact after_tile_frame fun r _ p _ => other _
  · rfl

theorem localB_inj {p' q' : Nat} (inside : p < g.tile_k) (inside' : p' < g.tile_k)
    (column : q < g.tile_n) (column' : q' < g.tile_n) (same : g.localB p q = g.localB p' q') :
    p = p' ∧ q = q' := by
  unfold GemmArgs.localB at same
  split at same
  · exact (grid_inj inside inside' same).symm
  · exact grid_inj column column' same

theorem Distributes.load_lb (d : Distributes g) (loaded : g.load_b) (inside : p < g.tile_k)
    (column : q < g.tile_n) :
    after (known F).run (loadB g c i) m (.lb c (g.buff_idx i) (g.localB p q)) =
      m (.b (g.globalB c i p q)) := by
  rw [d.loadB_eq, if_pos loaded]
  split
  · refine (after_tile (fun q p => .transfer (.lb c (g.buff_idx i) (g.localB p q))
      (.b (g.globalB c i p q)) true) ?_ ?_ column inside).trans rfl
    · intro q column p inside q' column' p' inside' same
      injection same with _ _ same
      exact (localB_inj inside inside' column column' same).symm
    · rintro q p q' p' ⟨_, ⟨⟩⟩
  · refine (after_tile (fun p q => .transfer (.lb c (g.buff_idx i) (g.localB p q))
      (.b (g.globalB c i p q)) true) ?_ ?_ inside column).trans rfl
    · intro p inside q column p' inside' q' column' same
      injection same with _ _ same
      exact localB_inj inside inside' column column' same
    · rintro p q p' q' ⟨_, ⟨⟩⟩

theorem Distributes.loadB_frame (d : Distributes g) (other : ∀ e, x ≠ .lb c (g.buff_idx i) e) :
    after (known F).run (loadB g c i) m x = m x := by
  rw [d.loadB_eq]
  split
  · split
    · exact after_tile_frame fun q _ p _ => other _
    · exact after_tile_frame fun p _ q _ => other _
  · rfl

theorem acc_inj {r' q' : Nat} (column : q < g.tile_n) (column' : q' < g.tile_n)
    (same : g.acc c i r q = g.acc c i r' q') : r = r' ∧ q = q' := by
  unfold GemmArgs.acc GemmArgs.lc at same
  split at same
  · injection same with _ same
    exact grid_inj column column' same
  · injection same with _ _ same
    exact grid_inj column column' same

/-- What a tile of `C` starts from. -/
theorem Distributes.load_lc (d : Distributes g) (loaded : g.load_c) (first : g.idx_k c i = 0)
    (row : r < g.tile_m) (column : q < g.tile_n) :
    after (known F).run (loadC g c i) m (g.acc c i r q) =
      if g.idx_k_abs c i = 0 then if g.beta ≠ 0 then m (g.elemC c i r q) else none else some 0 := by
  rw [d.loadC_eq, if_pos loaded]
  have apart : ∀ r' q', g.elemC c i r q ≠ g.acc c i r' q' := fun r' q' same => by
    rw [acc_loaded loaded] at same
    cases same
  split
  · refine (after_tile (fun r q => .transfer (g.acc c i r q) (g.elemC c i r q) (g.beta ≠ 0))
      ?_ ?_ row column).trans ?_
    · exact fun r _ q column r' _ q' column' same => acc_inj column column' same
    · rintro r q r' q' ⟨_, same⟩
      rw [show Op.target _ = g.acc c i r' q' from rfl, acc_loaded loaded] at same
      cases same
    · simp only [Op.known, decide_eq_true_eq]
  · refine (after_tile (fun r q => .clear (g.acc c i r q)) ?_ ?_ row column).trans rfl
    · exact fun r _ q column r' _ q' column' same => acc_inj column column' same
    · rintro r q r' q' ⟨⟩

theorem Distributes.loadC_frame (d : Distributes g)
    (other : g.load_c → g.idx_k c i = 0 → ∀ r q, x ≠ g.acc c i r q) :
    after (known F).run (loadC g c i) m x = m x := by
  rw [d.loadC_eq]
  split
  · next loaded =>
      split
      · next first =>
          exact after_tile_frame fun r _ q _ => other loaded (idx_k_of_abs first) r q
      · split
        · next first => exact after_tile_frame fun r _ q _ => other loaded first r q
        · rfl
  · rfl

/-- The tile, row and column of an element. -/
theorem Distributes.elem_inj (d : Distributes g) {j r' q' : Nat} (row : r < g.tile_m)
    (row' : r' < g.tile_m) (column : q < g.tile_n) (column' : q' < g.tile_n)
    (same : g.elemC c i r q = g.elemC c j r' q') : g.idx_mn c i = g.idx_mn c j ∧ r = r' ∧ q = q' := by
  injection same with _ same
  obtain ⟨rows, columns⟩ := grid_inj (d.column_lt column) (d.column_lt column') same
  obtain ⟨m_abs, rfl⟩ := grid_inj row row' rows
  obtain ⟨idx_n, rfl⟩ := grid_inj column column' columns
  refine ⟨?_, rfl, rfl⟩
  have idx_m := Nat.add_right_cancel m_abs
  rw [← Nat.div_add_mod (g.idx_mn c i) g.n_tiles, ← Nat.div_add_mod (g.idx_mn c j) g.n_tiles, idx_m]
  exact congrArg _ idx_n

theorem Distributes.store_c (d : Distributes g) (first : c = 0 ∨ ¬g.parallelize_k)
    (working : c < g.num_working_clusters) (tile : i < g.num_tiles c) (row : r < g.tile_m)
    (column : q < g.tile_n) :
    after (known F).run (storeC g c i) m (g.elemC c i r q) =
      if g.Complete c i then m (g.acc c i r q) else none := by
  rw [d.storeC_eq, if_pos first]
  refine (after_tile (fun r q => .transfer (g.elemC c i r q) (g.acc c i r q) (g.Complete c i))
    ?_ ?_ row column).trans ?_
  · exact fun r row q column r' row' q' column' same =>
      (d.elem_inj row row' column column' same).2
  · rintro r q r' q' ⟨_, (same : g.elemC c i r' q' = g.acc c i r q)⟩
    by_cases loaded : g.load_c = true
    · rw [acc_loaded loaded] at same
      cases same
    · rw [d.acc_in_place loaded working tile] at same
      exact same
  · simp only [Op.known, decide_eq_true_eq]

theorem Distributes.storeC_frame (d : Distributes g)
    (other : ∀ r < g.tile_m, ∀ q < g.tile_n, x ≠ g.elemC c i r q) :
    after (known F).run (storeC g c i) m x = m x := by
  rw [d.storeC_eq]
  split
  · exact after_tile_frame other
  · rfl

/-! An iteration's transfers -/

/-- The first tile of `k` is after the tiles before, the last one before those after. -/
theorem idx_mn_lt_of_first {j : Nat} (first : g.idx_k c j = 0) (before : i < j) :
    g.idx_mn c i < g.idx_mn c j := by
  refine Nat.div_lt_of_lt_mul ?_
  have whole := Nat.div_add_mod j (g.cluster_k_tiles c)
  rw [show j % g.cluster_k_tiles c = 0 from first] at whole
  rwa [GemmArgs.idx_mn, ← Nat.add_zero (_ * _), whole]

theorem idx_mn_lt_of_last {j : Nat} (last : g.idx_k c i + 1 = g.cluster_k_tiles c)
    (before : i < j) : g.idx_mn c i < g.idx_mn c j := by
  have some : 0 < g.cluster_k_tiles c := by omega
  refine (Nat.le_div_iff_mul_le some).mpr ?_
  have whole := Nat.div_add_mod i (g.cluster_k_tiles c)
  unfold GemmArgs.idx_k at last
  unfold GemmArgs.idx_mn
  rw [Nat.succ_mul, Nat.mul_comm]
  omega

/-- What an iteration does not transfer. -/
theorem Distributes.transfer_frame (d : Distributes g) (working : c < g.num_working_clusters)
    (stored : ∀ s, i = s + (g.lag + 1) → ∀ r < g.tile_m, ∀ q < g.tile_n, x ≠ g.elemC c s r q)
    (la : ∀ e, x ≠ .la c (g.buff_idx i) e) (lb : ∀ e, x ≠ .lb c (g.buff_idx i) e)
    (acc : i < g.num_tiles c → g.load_c → g.idx_k c i = 0 → ∀ r q, x ≠ g.acc c i r q) :
    after (known F).run (transferCode g c i) m x = m x := by
  rw [transferCode, after_append]
  have loads : ∀ n : Loc → Option F, after (known F).run
      (if i < g.num_tiles c then loadA g c i ++ loadB g c i ++ loadC g c i else []) n x = n x := by
    intro n
    split
    · next tile =>
        rw [after_append, after_append, d.loadC_frame (acc tile), d.loadB_frame lb,
          d.loadA_frame working la]
    · rfl
  rw [loads]
  split
  · next before => exact d.storeC_frame (stored _ (by omega))
  · rfl

/-- The tile that an iteration stores. -/
theorem Distributes.transfer_stored (d : Distributes g) (first : c = 0 ∨ ¬g.parallelize_k)
    (working : c < g.num_working_clusters) (tile : i < g.num_tiles c) (row : r < g.tile_m)
    (column : q < g.tile_n) :
    after (known F).run (transferCode g c (i + (g.lag + 1))) m (g.elemC c i r q) =
      if g.Complete c i then m (g.acc c i r q) else none := by
  rw [transferCode, after_append, if_pos (Nat.le_add_left _ _), Nat.add_sub_cancel]
  have loads : ∀ n : Loc → Option F, after (known F).run
      (if i + (g.lag + 1) < g.num_tiles c then loadA g c (i + (g.lag + 1)) ++
        loadB g c (i + (g.lag + 1)) ++ loadC g c (i + (g.lag + 1)) else []) n (g.elemC c i r q) =
      n (g.elemC c i r q) := by
    intro n
    split
    · rw [after_append, after_append, d.loadC_frame, d.loadB_frame, d.loadA_frame working]
      · rintro e ⟨⟩
      · rintro e ⟨⟩
      · intro loaded _ r' q' same
        rw [acc_loaded loaded] at same
        cases same
    · rfl
  rw [loads, d.store_c first working tile row column]

section Loads

variable (d : Distributes g) (working : c < g.num_working_clusters) (tile : i < g.num_tiles c)
include d working tile

theorem Distributes.transfer_la (loaded : g.load_a) (row : r < g.tile_m) (inside : p < g.tile_k) :
    after (known F).run (transferCode g c i) m (.la c (g.buff_idx i) (r * g.tile_k + p)) =
      m (.a (g.a c) (g.row c i r * g.lda + g.summand c i p)) := by
  rw [transferCode, after_append, if_pos tile, after_append, after_append, d.loadC_frame,
    d.loadB_frame (by simp), d.load_la working loaded row inside]
  · split
    · exact d.storeC_frame fun _ _ _ _ => by simp [GemmArgs.elemC]
    · rfl
  · intro loaded _ r' q' same
    rw [acc_loaded loaded] at same
    cases same

theorem Distributes.transfer_lb (loaded : g.load_b) (inside : p < g.tile_k)
    (column : q < g.tile_n) :
    after (known F).run (transferCode g c i) m (.lb c (g.buff_idx i) (g.localB p q)) =
      m (.b (g.globalB c i p q)) := by
  rw [transferCode, after_append, if_pos tile, after_append, after_append, d.loadC_frame,
    d.load_lb loaded inside column, d.loadA_frame working (by simp)]
  · split
    · exact d.storeC_frame fun _ _ _ _ => by simp [GemmArgs.elemC]
    · rfl
  · intro loaded _ r' q' same
    rw [acc_loaded loaded] at same
    cases same

theorem Distributes.transfer_lc (loaded : g.load_c) (first : g.idx_k c i = 0) (row : r < g.tile_m)
    (column : q < g.tile_n) :
    after (known F).run (transferCode g c i) m (g.acc c i r q) =
      if g.idx_k_abs c i = 0 then if g.beta ≠ 0 then m (g.elemC c i r q) else none else some 0 := by
  rw [transferCode, after_append, if_pos tile, after_append, after_append,
    d.load_lc loaded first row column, d.loadB_frame (by simp [GemmArgs.elemC]),
    d.loadA_frame working (by simp [GemmArgs.elemC])]
  have unstored : after (known F).run
      (if g.lag + 1 ≤ i then storeC g c (i - (g.lag + 1)) else []) m (g.elemC c i r q) =
      m (g.elemC c i r q) := by
    split
    · next before =>
        refine d.storeC_frame fun r' row' q' column' same => ?_
        have tiles := (d.elem_inj row row' column column' same).1
        exact (idx_mn_lt_of_first first (by omega)).ne' tiles
    · rfl
  rw [unstored]

end Loads

end Lists

/-! ## What the words are worth -/

section Values

variable {F : Type} [CommSemiring F] (g : GemmArgs) (A B C : Nat → Nat → F) (c i : Nat)
  (m : Loc → Option F)

/-- What tile `i` adds to an element of its tile of `C`. -/
def term (r q : Nat) : F :=
  ∑ p ∈ Finset.range g.tile_k,
    A (g.row c i r) (g.summand c i p) * B (g.summand c i p) (g.column c i q)

/-- An element of the tile of `C` after `n` tiles of `k`.  Where clusters share them, cluster 0
has what was in `C`. -/
def partialSum (n r q : Nat) : F :=
  (if c = 0 ∨ ¬g.parallelize_k then g.beta * C (g.row c i r) (g.column c i q) else 0) +
    ∑ t ∈ Finset.range n, term g A B c (g.iteration c (g.idx_mn c i) t) r q

/-- The product. -/
def product (row column : Nat) : F :=
  g.beta * C row column + ∑ x ∈ Finset.range g.k, A row x * B x column

/-- The operands, or the tiles of them that are not loaded, are there. -/
structure Sources : Prop where
  a : g.load_a → ∀ i < g.num_tiles c, ∀ r < g.tile_m, ∀ p < g.tile_k,
    m (.a (g.a c) (g.row c i r * g.lda + g.summand c i p)) =
      some (A (g.row c i r) (g.summand c i p))
  a_preloaded : ¬g.load_a → ∀ i < g.num_tiles c, ∀ r < g.tile_m, ∀ p < g.tile_k,
    m (.a (g.a c) (r * g.tile_k + p)) = some (A (g.row c i r) (g.summand c i p))
  b : g.load_b → ∀ i < g.num_tiles c, ∀ p < g.tile_k, ∀ q < g.tile_n,
    m (.b (g.globalB c i p q)) = some (B (g.summand c i p) (g.column c i q))
  b_preloaded : ¬g.load_b → ∀ i < g.num_tiles c, ∀ p < g.tile_k, ∀ q < g.tile_n,
    m (.b (g.localB p q)) = some (B (g.summand c i p) (g.column c i q))

/-- The tiles of the operands are in the buffers. -/
structure Operands : Prop where
  a : ∀ r < g.tile_m, ∀ p < g.tile_k,
    m (g.la c (g.buff_idx i) (r * g.tile_k + p)) = some (A (g.row c i r) (g.summand c i p))
  b : ∀ p < g.tile_k, ∀ q < g.tile_n,
    m (g.lb c (g.buff_idx i) (g.localB p q)) = some (B (g.summand c i p) (g.column c i q))

/-- The accumulator has what the tiles of `k` before have added, but for the factor. -/
def Primed : Prop :=
  ∀ r < g.tile_m, ∀ q < g.tile_n,
    ((if g.idx_k_abs c i = 0 then g.beta else 1) = 0 ∧
      partialSum g A B C c i (g.idx_k c i) r q = 0) ∨
    ∃ v, m (g.acc c i r q) = some v ∧
      ((if g.idx_k_abs c i = 0 then g.beta else 1 : Nat) : F) * v =
        partialSum g A B C c i (g.idx_k c i) r q

def Computed : Prop :=
  ∀ r < g.tile_m, ∀ q < g.tile_n,
    m (g.acc c i r q) = some (partialSum g A B C c i (g.idx_k c i + 1) r q)

variable {g A B C c i m} {r q : Nat}

theorem partialSum_succ : partialSum g A B C c i (g.idx_k c i + 1) r q =
    partialSum g A B C c i (g.idx_k c i) r q + term g A B c i r q := by
  rw [partialSum, Finset.sum_range_succ, iteration_idx, partialSum, add_assoc]

/-- **The tile kernel adds a tile.** -/
theorem multiplyTile_known (operands : Operands g A B c i m) (primed : Primed g A B C c i m)
    (row : r < g.tile_m) (column : q < g.tile_n) :
    (multiplyTile g c i r q).known m = some (partialSum g A B C c i (g.idx_k c i + 1) r q) := by
  have products : ∑ p ∈ Finset.range g.tile_k,
      (m (g.la c (g.buff_idx i) (r * g.tile_k + p))).getD 0 *
        (m (g.lb c (g.buff_idx i) (g.localB p q))).getD 0 = term g A B c i r q := by
    refine Finset.sum_congr rfl fun p inside => ?_
    have inside := Finset.mem_range.mp inside
    rw [operands.a r row p inside, operands.b p inside q column]
    rfl
  have there : ∀ p < g.tile_k, (m (g.la c (g.buff_idx i) (r * g.tile_k + p))).isSome = true ∧
      (m (g.lb c (g.buff_idx i) (g.localB p q))).isSome = true := by
    intro p inside
    rw [operands.a r row p inside, operands.b p inside q column]
    exact ⟨rfl, rfl⟩
  rw [multiplyTile, Op.known, products, partialSum_succ]
  rcases primed r row q column with ⟨zero, start⟩ | ⟨v, value, start⟩
  · rw [if_pos ⟨.inl zero, there⟩, zero, start, Nat.cast_zero, zero_mul]
  · rw [if_pos ⟨.inr (by rw [value]; rfl), there⟩, value, Option.getD_some, start]

/-- The state of a cluster before iteration `i`, but for the accumulator: with double buffering
the tiles that the last iteration has loaded; what has not been computed is as it was, and what
has been stored for the last time is the product's. -/
structure Ready (g : GemmArgs) (A B C : Nat → Nat → F) (c i : Nat) (m : Loc → Option F) :
    Prop where
  sources : Sources g A B c m
  operands : g.double_buffer → ∀ j < g.num_tiles c, i = j + 1 → Operands g A B c j m
  primed : g.double_buffer → ∀ j < g.num_tiles c, i = j + 1 → g.idx_k c j = 0 →
    Primed g A B C c j m
  fresh : c = 0 ∨ ¬g.parallelize_k → ∀ j < g.num_tiles c, g.idx_k c j = 0 → i ≤ j + g.lag →
    ∀ r < g.tile_m, ∀ q < g.tile_n,
      m (g.elemC c j r q) = some (C (g.row c j r) (g.column c j q))
  final : c = 0 ∨ ¬g.parallelize_k → ∀ j < g.num_tiles c,
    g.idx_k c j + 1 = g.cluster_k_tiles c → j + (g.lag + 1) < i →
    ∀ r < g.tile_m, ∀ q < g.tile_n,
      m (g.elemC c j r q) = some (product g A B C (g.row c j r) (g.column c j q))

/-- The accumulator of a tile: the sum so far, or after the last tile of `k` the product. -/
structure Held (g : GemmArgs) (A B C : Nat → Nat → F) (c i : Nat) (m : Loc → Option F) :
    Prop where
  more : g.idx_k c i + 1 < g.cluster_k_tiles c → Computed g A B C c i m
  last : c = 0 ∨ ¬g.parallelize_k → g.idx_k c i + 1 = g.cluster_k_tiles c →
    ∀ r < g.tile_m, ∀ q < g.tile_n,
      m (g.acc c i r q) = some (product g A B C (g.row c i r) (g.column c i q))

/-- The state of a cluster before iteration `i`. -/
structure Inv (g : GemmArgs) (A B C : Nat → Nat → F) (c i : Nat) (m : Loc → Option F) :
    Prop where
  ready : Ready g A B C c i m
  held : ∀ j < g.num_tiles c, i = j + (g.lag + 1) → Held g A B C c j m

/-- The state between the transfers and the computation. -/
structure Loaded (g : GemmArgs) (A B C : Nat → Nat → F) (c i : Nat) (m : Loc → Option F) :
    Prop where
  ready : Ready g A B C c (i + 1) m
  operands : ∀ j < g.num_tiles c, i = j + g.lag → Operands g A B c j m
  primed : ∀ j < g.num_tiles c, i = j + g.lag → Primed g A B C c j m

/-! ### The transfers of an iteration -/

omit [CommSemiring F] in
theorem Sources.congr {m' : Loc → Option F} (sources : Sources g A B c m)
    (same : ∀ x, Given x → m' x = m x) : Sources g A B c m' where
  a loaded i tile r row p inside :=
    (same (.a _ _) trivial).trans (sources.a loaded i tile r row p inside)
  a_preloaded not i tile r row p inside :=
    (same (.a _ _) trivial).trans (sources.a_preloaded not i tile r row p inside)
  b loaded i tile p inside q column :=
    (same (.b _) trivial).trans (sources.b loaded i tile p inside q column)
  b_preloaded not i tile p inside q column :=
    (same (.b _) trivial).trans (sources.b_preloaded not i tile p inside q column)

/-- The tiles of `k` of one tile of `C`. -/
theorem next_tile {j : Nat} (more : g.idx_k c (j + 1) ≠ 0) :
    g.idx_mn c (j + 1) = g.idx_mn c j ∧ g.idx_k c (j + 1) = g.idx_k c j + 1 := by
  unfold GemmArgs.idx_k at more
  unfold GemmArgs.idx_k GemmArgs.idx_mn
  rcases Nat.eq_zero_or_pos (g.cluster_k_tiles c) with none | some
  · simp [none]
  · have whole := Nat.div_add_mod j (g.cluster_k_tiles c)
    have small := Nat.mod_lt j some
    have split : j + 1 = j / g.cluster_k_tiles c * g.cluster_k_tiles c +
        (j % g.cluster_k_tiles c + 1) := by
      rw [Nat.mul_comm]
      omega
    have inside : j % g.cluster_k_tiles c + 1 < g.cluster_k_tiles c := by
      by_contra last
      refine more ?_
      rw [split, show j % g.cluster_k_tiles c + 1 = g.cluster_k_tiles c by omega, ← Nat.succ_mul,
        Nat.mul_mod_left]
    constructor
    · exact (congrArg (· / g.cluster_k_tiles c) split).trans (grid_div inside)
    · exact (congrArg (· % g.cluster_k_tiles c) split).trans (grid_mod inside)

/-! What belongs to a tile of `C` is the same for all tiles of `k`. -/

section

variable {j : Nat} (same : g.idx_mn c i = g.idx_mn c j)

include same

theorem row_congr : g.row c i r = g.row c j r := by
  simp only [GemmArgs.row, GemmArgs.idx_m_abs, same]

theorem column_congr : g.column c i q = g.column c j q := by
  simp only [GemmArgs.column, GemmArgs.idx_n, same]

theorem acc_congr : g.acc c i r q = g.acc c j r q := by
  rw [GemmArgs.acc, same, GemmArgs.acc]

theorem elem_congr : g.elemC c i r q = g.elemC c j r q := by
  rw [GemmArgs.elemC, row_congr same, column_congr same, GemmArgs.elemC]

end

theorem partialSum_congr {j n : Nat} (same : g.idx_mn c i = g.idx_mn c j) :
    partialSum g A B C c i n r q = partialSum g A B C c j n r q := by
  rw [partialSum, row_congr same, column_congr same, same, partialSum]

section Transfer

variable {m' : Loc → Option F} (d : Distributes g) (working : c < g.num_working_clusters)
  (moved : ∀ x, Given x ∨ Owns g c x → m' x = after (known F).run (transferCode g c i) m x)
include d working moved

theorem given_kept {x : Loc} (given : Given x) : m' x = m x := by
  have apart : ∀ {y}, (∀ a e, y ≠ .a a e) → (∀ e, y ≠ .b e) → x ≠ y := by
    rintro y not_a not_b rfl
    cases x with
    | a => exact not_a _ _ rfl
    | b => exact not_b _ rfl
    | c | la | lb | lc => exact given
  rw [moved x (.inl given), d.transfer_frame working]
  · exact fun s _ r _ q _ => apart (by simp [GemmArgs.elemC]) (by simp [GemmArgs.elemC])
  · exact fun e => apart (by simp) (by simp)
  · exact fun e => apart (by simp) (by simp)
  · intro _ loaded _ r q
    rw [acc_loaded loaded]
    exact apart (by simp) (by simp)

/-- An iteration brings the tiles of the operands. -/
theorem operands_loaded (sources : Sources g A B c m) (tile : i < g.num_tiles c) :
    Operands g A B c i m' where
  a r row p inside := by
    by_cases loaded : g.load_a = true
    · rw [GemmArgs.la, if_neg fun in_place => in_place.1 loaded,
        moved (.la _ _ _) (.inr rfl), d.transfer_la working tile loaded row inside, sources.a loaded i tile r row p inside]
    · have buffer := d.buffer_once working (fun double => d.a_once double loaded) tile
      rw [GemmArgs.la, if_pos ⟨loaded, buffer⟩, given_kept d working moved (x := .a _ _) trivial,
        sources.a_preloaded loaded i tile r row p inside]
  b p inside q column := by
    by_cases loaded : g.load_b = true
    · rw [GemmArgs.lb, if_neg fun in_place => in_place.1 loaded,
        moved (.lb _ _ _) (.inr rfl), d.transfer_lb working tile loaded inside column, sources.b loaded i tile p inside q column]
    · have buffer := d.buffer_once working (fun double => d.b_once double loaded) tile
      rw [GemmArgs.lb, if_pos ⟨loaded, buffer⟩, given_kept d working moved (x := .b _) trivial,
        sources.b_preloaded loaded i tile p inside q column]

/-- Elements of another tile of `C` than the one that is stored. -/
theorem elem_kept {j : Nat} (first : c = 0 ∨ ¬g.parallelize_k) (tile : j < g.num_tiles c)
    (other : ∀ s, i = s + (g.lag + 1) → g.idx_mn c j ≠ g.idx_mn c s) (row : r < g.tile_m)
    (column : q < g.tile_n) : m' (g.elemC c j r q) = m (g.elemC c j r q) := by
  rw [moved _ (.inr (d.owns_elem tile row column first)), d.transfer_frame working]
  · exact fun s stored r' row' q' column' same =>
      other s stored (d.elem_inj row row' column column' same).1
  · rintro e ⟨⟩
  · rintro e ⟨⟩
  · intro _ loaded _ r' q' same
    rw [acc_loaded loaded] at same
    cases same

/-- The first tile of `k` finds what the tile of `C` starts from. -/
theorem primed_first (tile : i < g.num_tiles c) (start : g.idx_k c i = 0)
    (fresh : c = 0 ∨ ¬g.parallelize_k → ∀ r < g.tile_m, ∀ q < g.tile_n,
      m (g.elemC c i r q) = some (C (g.row c i r) (g.column c i q))) :
    Primed g A B C c i m' := by
  have some : 0 < g.cluster_k_tiles c := by
    rw [d.working_k_tiles working]
    exact d.some_k
  intro r row q column
  rw [start, partialSum, Finset.sum_range_zero, add_zero]
  by_cases abs : g.idx_k_abs c i = 0
  · have first := cluster_of_idx_k_abs some abs
    rw [if_pos abs, if_pos first]
    by_cases zero : g.beta = 0
    · exact .inl ⟨zero, by rw [zero, Nat.cast_zero, zero_mul]⟩
    · refine .inr ⟨_, ?_, rfl⟩
      rw [← fresh first r row q column]
      by_cases loaded : g.load_c = true
      · rw [moved _ (.inr (d.owns_acc working tile row column)),
          d.transfer_lc working tile loaded start row column, if_pos abs, if_pos zero]
      · rw [d.acc_in_place loaded working tile]
        exact elem_kept d working moved first tile
          (fun s stored => (idx_mn_lt_of_first start (by omega)).ne') row column
  · have rest : ¬(c = 0 ∨ ¬g.parallelize_k) := by
      rintro (rfl | alone)
      · exact abs (by rw [GemmArgs.idx_k_abs, start]; simp)
      · exact abs (by rw [GemmArgs.idx_k_abs, start, if_neg alone])
    have loaded : g.load_c = true := by
      by_contra in_place
      exact rest (d.first_of_in_place in_place working)
    rw [if_neg abs, if_neg rest]
    refine .inr ⟨0, ?_, mul_zero _⟩
    rw [moved _ (.inr (d.owns_acc working tile row column)),
      d.transfer_lc working tile loaded start row column, if_neg abs]

/-- The accumulator of the tile that is computed next. -/
theorem acc_kept {j : Nat} (lagged : i = j + g.lag) (tile : j < g.num_tiles c)
    (other : g.lag = 0 → g.idx_k c j ≠ 0) (loaded : g.load_c) (row : r < g.tile_m)
    (column : q < g.tile_n) : m' (g.acc c j r q) = m (g.acc c j r q) := by
  have some : 0 < g.cluster_k_tiles c := by
    rw [d.working_k_tiles working]
    exact d.some_k
  rw [moved _ (.inr (d.owns_acc working tile row column)), d.transfer_frame working]
  · intro s _ r' _ q' _ same
    rw [acc_loaded loaded] at same
    cases same
  · rw [acc_loaded loaded]
    rintro e ⟨⟩
  · rw [acc_loaded loaded]
    rintro e ⟨⟩
  · intro _ _ start r' q' same
    rw [acc_loaded loaded, acc_loaded loaded] at same
    injection same with _ buffers
    by_cases double : g.double_buffer = true
    · rw [lag_double double] at lagged
      rw [lagged] at start buffers
      rw [GemmArgs.idx_mn, GemmArgs.idx_mn, grid_first start some] at buffers
      exact buff_succ double buffers.symm
    · have no_lag : g.lag = 0 := if_neg double
      rw [no_lag, Nat.add_zero] at lagged
      rw [lagged] at start
      exact other no_lag start

/-- Another tile of `k` finds what the tiles before have added. -/
theorem primed_more {j : Nat} (lagged : i = j + g.lag) (tile : j < g.num_tiles c)
    (more : g.idx_k c j ≠ 0)
    (held : ∀ j < g.num_tiles c, i = j + (g.lag + 1) → Held g A B C c j m) :
    Primed g A B C c j m' := by
  obtain ⟨j, rfl⟩ : ∃ j', j = j' + 1 := by
    cases j with
    | zero => exact absurd (Nat.zero_mod _) more
    | succ j => exact ⟨j, rfl⟩
  obtain ⟨idx_mn, idx_k⟩ := next_tile more
  have before : j < g.num_tiles c := Nat.lt_of_succ_lt tile
  have some : 0 < g.cluster_k_tiles c := by
    rw [d.working_k_tiles working]
    exact d.some_k
  have inside : g.idx_k c j + 1 < g.cluster_k_tiles c := idx_k ▸ idx_k_lt some
  have sum := (held j before (by omega)).more inside
  have abs : g.idx_k_abs c (j + 1) ≠ 0 := fun abs => more (idx_k_of_abs abs)
  intro r row q column
  rw [if_neg abs]
  refine .inr ⟨partialSum g A B C c (j + 1) (g.idx_k c (j + 1)) r q, ?_,
    by rw [Nat.cast_one, one_mul]⟩
  rw [idx_k, partialSum_congr idx_mn, ← sum r row q column]
  by_cases loaded : g.load_c = true
  · rw [acc_kept d working moved lagged tile (fun _ => more) loaded row column, acc_congr idx_mn]
  · -- the tile has just been stored onto itself
    have mine := d.first_of_in_place loaded working
    rw [d.acc_in_place loaded working tile, elem_congr idx_mn,
      moved _ (.inr (d.owns_elem before row column mine)),
      show i = j + (g.lag + 1) by omega, d.transfer_stored mine working before row column,
      if_pos (.inr loaded)]

/-- With double buffering the buffers of the tile before are left alone. -/
theorem operands_kept {j : Nat} (double : g.double_buffer) (next : i = j + 1)
    (operands : Operands g A B c j m) : Operands g A B c j m' where
  a r row p inside := by
    rw [← operands.a r row p inside]
    unfold GemmArgs.la
    split
    · exact given_kept d working moved (x := .a _ _) trivial
    · rw [moved (.la _ _ _) (.inr rfl), d.transfer_frame working]
      · simp [GemmArgs.elemC]
      · intro e same
        injection same with _ buffers
        exact buff_succ double (next ▸ buffers.symm)
      · simp
      · intro _ loaded _ r q
        simp [acc_loaded loaded]
  b p inside q column := by
    rw [← operands.b p inside q column]
    unfold GemmArgs.lb
    split
    · exact given_kept d working moved (x := .b _) trivial
    · rw [moved (.lb _ _ _) (.inr rfl), d.transfer_frame working]
      · simp [GemmArgs.elemC]
      · simp
      · intro e same
        injection same with _ buffers
        exact buff_succ double (next ▸ buffers.symm)
      · intro _ loaded _ r q
        simp [acc_loaded loaded]

/-- **The transfers of an iteration** bring what its computation needs, and take out what the
one before has finished. -/
theorem Inv.transfer (inv : Inv g A B C c i m) : Loaded g A B C c i m' := by
  have start : ∀ j < g.num_tiles c, j = i → g.idx_k c j = 0 → Primed g A B C c j m' := by
    rintro j tile rfl first
    refine primed_first d working moved tile first fun mine => ?_
    exact inv.ready.fresh mine j tile first (Nat.le_add_right _ _)
  refine ⟨⟨?_, ?_, ?_, ?_, ?_⟩, ?_, ?_⟩
  · exact inv.ready.sources.congr fun x given => given_kept d working moved given
  · rintro _ j tile next
    obtain rfl : i = j := by omega
    exact operands_loaded d working moved inv.ready.sources tile
  · exact fun _ j tile next first => start j tile (by omega) first
  · intro mine j tile first later r row q column
    rw [elem_kept d working moved mine tile (fun s stored => (idx_mn_lt_of_first first (by omega)).ne')
      row column]
    exact inv.ready.fresh mine j tile first (by omega) r row q column
  · intro mine j tile last earlier r row q column
    rcases Nat.lt_succ_iff_lt_or_eq.mp earlier with before | now
    · rw [elem_kept d working moved mine tile
        (fun s stored => (idx_mn_lt_of_last last (by omega)).ne) row column]
      exact inv.ready.final mine j tile last before r row q column
    · rw [moved _ (.inr (d.owns_elem tile row column mine)), ← now, d.transfer_stored mine working tile row column,
        if_pos (.inl (by omega)), (inv.held j tile now.symm).last mine last r row q column]
  · intro j tile lagged
    by_cases double : g.double_buffer = true
    · rw [lag_double double] at lagged
      exact operands_kept d working moved double lagged (inv.ready.operands double j tile lagged)
    · obtain rfl : i = j := by rwa [show g.lag = 0 from if_neg double, Nat.add_zero] at lagged
      exact operands_loaded d working moved inv.ready.sources tile
  · intro j tile lagged
    by_cases first : g.idx_k c j = 0
    · by_cases double : g.double_buffer = true
      · have next := lagged
        rw [lag_double double] at next
        have primed := inv.ready.primed double j tile next first
        intro r row q column
        refine (primed r row q column).imp_right fun ⟨v, value, sum⟩ => ⟨v, ?_, sum⟩
        rw [← value]
        by_cases loaded : g.load_c = true
        · refine acc_kept d working moved lagged tile (fun none => ?_) loaded row column
          rw [lag_double double] at none
          cases none
        · rw [d.acc_in_place loaded working tile]
          exact elem_kept d working moved (d.first_of_in_place loaded working) tile
            (fun s stored => (idx_mn_lt_of_first first (by omega)).ne') row column
      · have same : i = j := by rwa [show g.lag = 0 from if_neg double, Nat.add_zero] at lagged
        exact start j tile same.symm first
    · exact primed_more d working moved lagged tile first inv.held

end Transfer

/-! ### The computation of an iteration -/

/-- The computation changes the accumulators of its tile. -/
theorem Loaded.compute {m' : Loc → Option F} (d : Distributes g)
    (working : c < g.num_working_clusters) (loaded : Loaded g A B C c i m)
    (computed : ∀ j < g.num_tiles c, i = j + g.lag → ∀ r < g.tile_m, ∀ q < g.tile_n,
      m' (g.acc c j r q) = (multiplyTile g c j r q).known m)
    (keeps : ∀ x, Given x ∨ Owns g c x →
      (∀ j < g.num_tiles c, i = j + g.lag → ∀ core, ¬CoreWrites g c j core x) → m' x = m x) :
    Ready g A B C c (i + 1) m' ∧
      ∀ j < g.num_tiles c, i = j + g.lag → Computed g A B C c j m' := by
  have some : 0 < g.cluster_k_tiles c := by
    rw [d.working_k_tiles working]
    exact d.some_k
  have elem : c = 0 ∨ ¬g.parallelize_k → ∀ j < g.num_tiles c,
      (∀ j' < g.num_tiles c, i = j' + g.lag → g.idx_mn c j ≠ g.idx_mn c j') →
      ∀ r < g.tile_m, ∀ q < g.tile_n, m' (g.elemC c j r q) = m (g.elemC c j r q) := by
    intro mine j tile other r row q column
    refine keeps _ (.inr (d.owns_elem tile row column mine)) ?_
    rintro j' tile' now core ⟨in_place, _⟩
    exact other j' tile' now
      ((d.idx_mn_in_place in_place tile).trans (d.idx_mn_in_place in_place tile').symm)
  refine ⟨⟨?_, ?_, ?_, ?_, ?_⟩, fun j tile now r row q column => ?_⟩
  · refine loaded.ready.sources.congr fun x given => keeps x (.inl given) fun _ _ _ _ writes => ?_
    exact writes.owns.not_given given
  · intro double j tile now
    have there := loaded.ready.operands double j tile now
    refine ⟨fun r row p inside => ?_, fun p inside q column => ?_⟩
    · rw [← there.a r row p inside]
      refine keeps _ core_reads_la.near fun j _ _ core => ?_
      unfold GemmArgs.la
      split <;> exact id
    · rw [← there.b p inside q column]
      refine keeps _ core_reads_lb.near fun j _ _ core => ?_
      unfold GemmArgs.lb
      split <;> exact id
  · intro double j tile now first r row q column
    refine (loaded.ready.primed double j tile now first r row q column).imp_right
      fun ⟨v, value, sum⟩ => ⟨v, ?_, sum⟩
    rw [← value]
    refine keeps _ (.inr (d.owns_acc working tile row column)) fun j' tile' before core => ?_
    rw [lag_double double] at before
    obtain rfl : j = j' + 1 := by omega
    by_cases in_place : g.load_c = true
    · rw [acc_loaded in_place]
      rintro ⟨_, buffers, _⟩
      rw [GemmArgs.idx_mn, GemmArgs.idx_mn, grid_first first some] at buffers
      exact buff_succ double buffers
    · have single := d.c_once double in_place
      rw [← d.working_num_tiles working] at single
      omega
  · intro mine j tile first later r row q column
    rw [elem mine j tile (fun j' tile' now => (idx_mn_lt_of_first first (by omega)).ne') r row q
      column]
    exact loaded.ready.fresh mine j tile first later r row q column
  · intro mine j tile last earlier r row q column
    rw [elem mine j tile (fun j' tile' now => (idx_mn_lt_of_last last (by omega)).ne) r row q
      column]
    exact loaded.ready.final mine j tile last earlier r row q column
  · rw [computed j tile now r row q column]
    exact multiplyTile_known (loaded.operands j tile now) (loaded.primed j tile now) row column

/-! ### The sums -/

/-- What a tile of `k` adds, by its number. -/
def termAt (g : GemmArgs) (A B : Nat → Nat → F) (row column t : Nat) : F :=
  ∑ p ∈ Finset.range g.tile_k, A row (t * g.tile_k + p) * B (t * g.tile_k + p) column

theorem sum_termAt (d : Distributes g) {row column : Nat} :
    ∑ t ∈ Finset.range g.k_tiles, termAt g A B row column t =
      ∑ x ∈ Finset.range g.k, A row x * B x column := by
  rw [← d.k_eq]
  exact (sum_grid fun x => A row x * B x column).symm

/-- The cluster's tiles of `k`, one after the other. -/
theorem partialSum_eq (r q : Nat) : partialSum g A B C c i (g.cluster_k_tiles c) r q =
    (if c = 0 ∨ ¬g.parallelize_k then g.beta * C (g.row c i r) (g.column c i q) else 0) +
      ∑ t ∈ Finset.range (g.cluster_k_tiles c),
        termAt g A B (g.row c i r) (g.column c i q)
          (t + if g.parallelize_k then c * g.cluster_k_tiles c else 0) := by
  refine congrArg _ (Finset.sum_congr rfl fun t inside => ?_)
  have inside := Finset.mem_range.mp inside
  have same : g.idx_mn c (g.iteration c (g.idx_mn c i) t) = g.idx_mn c i := iteration_idx_mn inside
  have summand : ∀ p, g.summand c (g.iteration c (g.idx_mn c i) t) p =
      (t + if g.parallelize_k then c * g.cluster_k_tiles c else 0) * g.tile_k + p := by
    intro p
    rw [GemmArgs.summand, GemmArgs.idx_k_abs, iteration_idx_k inside]
  simp only [term, termAt, row_congr same, column_congr same, summand]

/-- The clusters that share the tiles of `k` have them all. -/
theorem Distributes.working_tiles (d : Distributes g) (by_k : g.parallelize_k) :
    g.num_working_clusters * g.cluster_k_tiles 0 = g.k_tiles := by
  unfold GemmArgs.num_working_clusters GemmArgs.cluster_k_tiles
  rw [if_pos by_k]
  have some_tile := d.some_k_tile
  rcases d.k_dealt by_k with few | whole
  · have none := Nat.div_eq_of_lt few
    rw [if_pos ⟨by_k, none⟩, none, Nat.mod_eq_of_lt few, if_pos some_tile, Nat.zero_add, Nat.mul_one]
  · have some := Nat.div_pos (Nat.le_of_dvd some_tile whole) d.some_cluster
    rw [if_neg fun none => some.ne' none.2, Nat.mod_eq_zero_of_dvd whole, if_neg (Nat.lt_irrefl 0),
      Nat.add_zero, Nat.mul_div_cancel' whole]

/-- A cluster that has all tiles of `k` computes the product. -/
theorem partialSum_alone (d : Distributes g) (working : c < g.num_working_clusters)
    (alone : ¬reduces g) (first : c = 0 ∨ ¬g.parallelize_k) (r q : Nat) :
    partialSum g A B C c i (g.cluster_k_tiles c) r q =
      product g A B C (g.row c i r) (g.column c i q) := by
  have all : g.cluster_k_tiles c = g.k_tiles := by
    by_cases by_k : g.parallelize_k = true
    · have one : g.num_working_clusters = 1 := by
        have some := d.some_working
        by_contra several
        refine alone (decide_eq_true ⟨by_k, (d.k_reduced by_k ?_).2, ?_⟩) <;> omega
      rw [d.working_k_tiles working, ← d.working_tiles by_k, one, Nat.one_mul]
    · exact if_neg by_k
  have offset : (if g.parallelize_k then c * g.cluster_k_tiles c else 0) = 0 := by
    split
    · next by_k => rw [first.resolve_right fun not => not by_k, Nat.zero_mul]
    · rfl
  rw [partialSum_eq, if_pos first, offset, all, product, ← sum_termAt d]
  rfl

/-- Clusters that share the tiles of `k` work on the same tile of `C`. -/
theorem tile_shared (d : Distributes g) (by_k : g.parallelize_k)
    (working : c < g.num_working_clusters) :
    g.row c i r = g.row 0 i r ∧ g.column c i q = g.column 0 i q := by
  have alone : ¬g.parallelize_m := fun by_m => d.one_way ⟨by_m, by_k⟩
  simp only [GemmArgs.row, GemmArgs.column, GemmArgs.idx_m_abs, GemmArgs.idx_n, GemmArgs.idx_mn,
    d.working_k_tiles working, if_neg alone, and_self]

/-- The clusters together compute the product. -/
theorem partialSum_together (d : Distributes g) (by_k : g.parallelize_k) :
    ∑ c ∈ Finset.range g.num_working_clusters,
        partialSum g A B C c i (g.cluster_k_tiles c) r q =
      product g A B C (g.row 0 i r) (g.column 0 i q) := by
  have parts : ∀ c ∈ Finset.range g.num_working_clusters,
      partialSum g A B C c i (g.cluster_k_tiles c) r q =
        (if c = 0 then g.beta * C (g.row 0 i r) (g.column 0 i q) else 0) +
          ∑ t ∈ Finset.range (g.cluster_k_tiles 0),
            termAt g A B (g.row 0 i r) (g.column 0 i q) (c * g.cluster_k_tiles 0 + t) := by
    intro c member
    have working := Finset.mem_range.mp member
    obtain ⟨row, column⟩ := tile_shared (i := i) (r := r) (q := q) d by_k working
    rw [partialSum_eq, row, column, d.working_k_tiles working, if_pos by_k]
    simp only [by_k, not_true_eq_false, or_false, Nat.add_comm]
  rw [Finset.sum_congr rfl parts, Finset.sum_add_distrib, Finset.sum_ite_eq',
    if_pos (Finset.mem_range.mpr d.some_working), ← sum_grid, d.working_tiles by_k, sum_termAt d,
    product]

end Values

/-! ## From phase to phase -/

section Phases

variable {F : Type} [CommSemiring F] {g : GemmArgs} {A B C : Nat → Nat → F} {c i mn k : Nat}
  {m : Loc → Option F} {x : Loc}

theorem agent_lt {core : Nat} (cluster : c < g.snrt_cluster_num) (inside : core < g.cores) :
    c * g.cores + core < (gemm g).agents := grid_lt cluster inside

theorem acc_ne {i j r q p : Nat} : g.acc c i r q ≠ g.la c (g.buff_idx j) p ∧
    g.acc c i r q ≠ g.lb c (g.buff_idx j) p := by
  unfold GemmArgs.acc GemmArgs.lc GemmArgs.la GemmArgs.lb
  constructor <;> split <;> split <;> simp

theorem Distributes.nodup_tileCode (d : Distributes g) {i core : Nat} (compute : core < g.snrt_cluster_compute_core_num) :
    ((tileCode g c i core).map Op.target).Nodup := by
  rw [d.tileCode_eq]
  exact nodup_targets (nodup_dealtRows compute) fun _ _ _ column _ _ _ column' same =>
    acc_inj column column' same

theorem Distributes.tileCode_unread (d : Distributes g) {i core r q : Nat} (compute : core < g.snrt_cluster_compute_core_num) :
    ∀ o ∈ tileCode g c i core, (multiplyTile g c i r q).Uses o.target →
      o.target = (multiplyTile g c i r q).target := by
  intro o member uses
  obtain ⟨r', _, _, q', _, rfl⟩ := (d.mem_tileCode compute).mp member
  rcases uses with same | ⟨p, _, same | same⟩
  · exact same
  · exact absurd same acc_ne.1
  · exact absurd same acc_ne.2

variable (d : Distributes g)
include d

theorem transfer_phase (planned : .transfer mn k ∈ (gemm g).schedule)
    (working : c < g.num_working_clusters) (active : g.Active c mn k)
    (near : Given x ∨ Owns g c x) :
    (gemm g).phase (known F) (.transfer mn k) m x =
      after (known F).run (transferCode g c (g.iteration c mn k)) m x := by
  have mover : g.snrt_cluster_compute_core_num < g.cores := Nat.lt_succ_self _
  have cluster := Nat.lt_of_lt_of_le working d.working_le
  have here : (gemm g).code (.transfer mn k) (c * g.cores + g.snrt_cluster_compute_core_num) =
      transferCode g c (g.iteration c mn k) := by
    simp only [gemm, code, grid_div mover, grid_mod mover, true_and]
    exact if_pos active
  rw [← here]
  refine d.raceFree.phase_own planned (agent_lt cluster mover) m ?_
  intro other below apart o member writes
  obtain ⟨core, _, written⟩ :=
    (d.code_within (F := F) (p := .transfer mn k) below o member).2 x writes
  refine apart (agent_ext (g := g) ?_ ?_)
  · rw [grid_div mover]
    exact written.owns.same_cluster near
  · rw [grid_mod mover]
    exact core

theorem compute_phase (planned : .compute mn k ∈ (gemm g).schedule)
    (working : c < g.num_working_clusters) (active : g.Active c mn k) {j : Nat}
    (lagged : g.iteration c mn k = j + g.lag) (tile : j < g.num_tiles c) {r q : Nat}
    (row : r < g.tile_m) (column : q < g.tile_n) :
    (gemm g).phase (known F) (.compute mn k) m (g.acc c j r q) = (multiplyTile g c j r q).known m := by
  have compute : r % g.snrt_cluster_compute_core_num < g.snrt_cluster_compute_core_num :=
    Nat.mod_lt _ d.some_core
  have core : r % g.snrt_cluster_compute_core_num < g.cores := Nat.lt_succ_of_lt compute
  have cluster := Nat.lt_of_lt_of_le working d.working_le
  have here : (gemm g).code (.compute mn k) (c * g.cores + r % g.snrt_cluster_compute_core_num) =
      tileCode g c j (r % g.snrt_cluster_compute_core_num) := by
    simp only [gemm, code, grid_div core, grid_mod core, computeCode]
    rw [if_pos ⟨compute.ne, active⟩, lagged, Nat.add_sub_cancel, if_pos ⟨Nat.le_add_left _ _, tile⟩]
  have member : multiplyTile g c j r q ∈
      (gemm g).code (.compute mn k) (c * g.cores + r % g.snrt_cluster_compute_core_num) := by
    rw [here]
    exact (d.mem_tileCode compute).mpr ⟨r, row, rfl, q, column, rfl⟩
  have alone := d.raceFree.keep (S := known F) planned (agent_lt cluster core) member (.inr rfl)
  refine (d.raceFree.phase_own planned (agent_lt cluster core) m alone).trans ?_
  rw [here] at member ⊢
  exact after_member member (d.nodup_tileCode compute) (d.tileCode_unread compute)

/-- What the computation leaves to a cluster. -/
theorem compute_keeps (near : Given x ∨ Owns g c x)
    (other : ∀ j < g.num_tiles c, g.iteration c mn k = j + g.lag →
      ∀ core, ¬CoreWrites g c j core x) :
    (gemm g).phase (known F) (.compute mn k) m x = m x := by
  refine Program.phase_frame m fun agent below o member writes => ?_
  obtain ⟨_, _, tile, written⟩ :=
    (d.code_within (F := F) (p := .compute mn k) below o member).2 x writes
  have cluster := written.owns.same_cluster near
  rw [cluster] at tile written
  exact other _ tile.2 (by omega) _ written

omit d in
theorem gather_phase : (gemm g).phase (known F) (.gather mn) m = m :=
  funext fun _ => Program.phase_frame m fun _ _ _ member => nomatch member

omit d in
/-- Nothing happens in an iteration that no cluster has. -/
theorem idle_phases (idle : ∀ c < g.snrt_cluster_num, ¬g.Active c mn k) :
    (gemm g).phase (known F) (.transfer mn k) m = m ∧
      (gemm g).phase (known F) (.compute mn k) m = m := by
  constructor
  · funext x
    refine Program.phase_frame m fun agent below o member => ?_
    have none : code g (.transfer mn k) agent = [] := if_neg fun acts => idle _ (cluster_lt below) acts.2
    rw [show (gemm g).code = code g from rfl, none] at member
    cases member
  · funext x
    refine Program.phase_frame m fun agent below o member => ?_
    have none : code g (.compute mn k) agent = [] := if_neg fun acts => idle _ (cluster_lt below) acts.2
    rw [show (gemm g).code = code g from rfl, none] at member
    cases member

/-- A reduction adds the tiles of the clusters up, in the first. -/
theorem reduce_phase (adds : reduces g) (tile : mn < g.cluster_m_tiles * g.n_tiles)
    (planned : .reduce mn ∈ (gemm g).schedule) :
    (gemm g).phase (known F) (.reduce mn) m =
      after (known F).run (tileOps g.tile_m g.tile_n fun r q =>
        .add (.lc 0 (g.buff_idx mn) (r * g.tile_n + q)) g.num_working_clusters
          fun c => .lc c (g.buff_idx mn) (r * g.tile_n + q)) m := by
  have loaded : ∀ c e, g.lc c (g.buff_idx mn) e = .lc c (g.buff_idx mn) e := fun c e =>
    if_neg fun in_place => in_place.1 (d.loaded_of_reduces adds)
  have here : (gemm g).code (.reduce mn) 0 = tileOps g.tile_m g.tile_n fun r q =>
      .add (.lc 0 (g.buff_idx mn) (r * g.tile_n + q)) g.num_working_clusters
        fun c => .lc c (g.buff_idx mn) (r * g.tile_n + q) := by
    simp only [gemm, code, if_true, reduceCode, loaded]
    rw [if_pos ⟨adds, tile⟩, lineOps_eq]
  have first : 0 < (gemm g).agents := Nat.mul_pos d.some_cluster (Nat.succ_pos _)
  funext x
  rw [← here]
  refine d.raceFree.phase_own planned first m fun other below apart o member writes => apart ?_
  exact ((d.code_within (F := F) (p := .reduce mn) below o member).2 x writes).1

omit d in
theorem reduce_idle (idle : ¬(reduces g ∧ mn < g.cluster_m_tiles * g.n_tiles)) :
    (gemm g).phase (known F) (.reduce mn) m = m := by
  funext x
  refine Program.phase_frame m fun agent below o member => ?_
  have none : code g (.reduce mn) agent = [] := by
    simp only [code, reduceCode, if_neg idle, ite_self]
  rw [show (gemm g).code = code g from rfl, none] at member
  cases member

omit d in
/-- The state of all clusters before an iteration. -/
def Between (g : GemmArgs) (A B C : Nat → Nat → F) (i : Nat) (m : Loc → Option F) : Prop :=
  ∀ c < g.num_working_clusters, Inv g A B C c i m

/-- Before the clusters add up. -/
def Unreduced (g : GemmArgs) (A B C : Nat → Nat → F) (i : Nat) (m : Loc → Option F) : Prop :=
  ∀ c < g.num_working_clusters, Ready g A B C c i m ∧
    ∀ j < g.num_tiles c, i = j + (g.lag + 1) → Computed g A B C c j m

omit d in
theorem Inv.idle (inv : Inv g A B C c i m) (past : g.num_iters c ≤ i) :
    Ready g A B C c (i + 1) m := by
  unfold GemmArgs.num_iters at past
  refine ⟨inv.ready.sources, ?_, ?_, ?_, ?_⟩
  · exact fun _ j tile now => absurd now (by omega)
  · exact fun _ j tile now => absurd now (by omega)
  · exact fun _ j tile _ later => absurd later (by omega)
  · exact fun mine j tile last _ => inv.ready.final mine j tile last (by omega)

theorem iteration_eq (working : c < g.num_working_clusters) :
    g.iteration c mn k = mn * g.cluster_k_tiles 0 + k := by
  rw [GemmArgs.iteration, d.working_k_tiles working]

theorem num_iters_eq (working : c < g.num_working_clusters) : g.num_iters c = g.num_iters 0 := by
  rw [GemmArgs.num_iters, d.working_num_tiles working, GemmArgs.num_iters]

theorem Between.loaded (between : Between g A B C (mn * g.cluster_k_tiles 0 + k) m)
    (transfers : .transfer mn k ∈ (gemm g).schedule) (working : c < g.num_working_clusters)
    (active : g.Active c mn k) :
    Loaded g A B C c (mn * g.cluster_k_tiles 0 + k)
      ((gemm g).phase (known F) (.transfer mn k) m) :=
  (between c working).transfer d working fun x near => by
    rw [← iteration_eq d working]
    exact transfer_phase d transfers working active near

/-- **An iteration.** -/
theorem Between.iteration (between : Between g A B C (mn * g.cluster_k_tiles 0 + k) m)
    (inside : k < g.cluster_k_tiles 0) (transfers : .transfer mn k ∈ (gemm g).schedule)
    (computes : .compute mn k ∈ (gemm g).schedule) :
    Unreduced g A B C (mn * g.cluster_k_tiles 0 + k + 1)
      ((gemm g).phase (known F) (.compute mn k) ((gemm g).phase (known F) (.transfer mn k) m)) := by
  by_cases active : mn * g.cluster_k_tiles 0 + k < g.num_iters 0
  · intro c working
    have acts : g.Active c mn k := by
      refine ⟨by rwa [d.working_k_tiles working], ?_⟩
      rwa [iteration_eq d working, num_iters_eq d working]
    have loaded := between.loaded d transfers working acts
    refine (loaded.compute d working ?_ ?_).imp_right fun computed j tile now =>
      computed j tile (by omega)
    · intro j tile now r row q column
      exact compute_phase d computes working acts ((iteration_eq d working).trans now) tile row column
    · intro x near other
      exact compute_keeps d near fun j tile now => other j tile ((iteration_eq d working).symm.trans now)
  · have idle : ∀ c < g.snrt_cluster_num, ¬g.Active c mn k := fun c cluster acts => by
      have working := d.working_of_active cluster acts
      have before := acts.2
      rw [iteration_eq d working, num_iters_eq d working] at before
      exact active before
    rw [(idle_phases idle).1, (idle_phases idle).2]
    intro c working
    have past : g.num_iters c ≤ mn * g.cluster_k_tiles 0 + k := by
      rw [num_iters_eq d working]
      exact Nat.le_of_not_lt active
    refine ⟨(between c working).idle past, fun j tile now => absurd now ?_⟩
    unfold GemmArgs.num_iters at past
    omega

/-- What is not added up over the clusters is finished. -/
theorem Unreduced.settle (unreduced : Unreduced g A B C i m)
    (more : reduces g → ∀ c < g.num_working_clusters, ∀ j < g.num_tiles c, i = j + (g.lag + 1) →
      g.idx_k c j + 1 ≠ g.cluster_k_tiles c) : Between g A B C i m := by
  intro c working
  obtain ⟨ready, computed⟩ := unreduced c working
  refine ⟨ready, fun j tile now => ⟨fun _ => computed j tile now, ?_⟩⟩
  intro mine last r row q column
  have alone : ¬reduces g := fun adds => more adds c working j tile now last
  rw [computed j tile now r row q column, last, partialSum_alone d working alone mine]

theorem lag_of_reduces (adds : reduces g) : ¬g.double_buffer ∧ g.lag = 0 := by
  have single := d.k_single (of_decide_eq_true adds).1
  exact ⟨single, if_neg single⟩

omit d in
/-- A reduction is about accumulators. -/
theorem Ready.congr {m' : Loc → Option F} (ready : Ready g A B C c i m)
    (single : ¬g.double_buffer) (same : ∀ x, Given x → m' x = m x)
    (elem : ∀ w e, m' (.c w e) = m (.c w e)) : Ready g A B C c i m' where
  sources := ready.sources.congr same
  operands double := absurd double single
  primed double := absurd double single
  fresh mine j tile first later r row q column :=
    (elem _ _).trans (ready.fresh mine j tile first later r row q column)
  final mine j tile last earlier r row q column :=
    (elem _ _).trans (ready.final mine j tile last earlier r row q column)

/-- **The end of a tile of `C`.** -/
theorem Unreduced.reduce (unreduced : Unreduced g A B C ((mn + 1) * g.cluster_k_tiles 0) m)
    (planned : .reduce mn ∈ (gemm g).schedule) :
    Between g A B C ((mn + 1) * g.cluster_k_tiles 0) ((gemm g).phase (known F) (.reduce mn) m) := by
  by_cases takes_part : reduces g ∧ mn < g.cluster_m_tiles * g.n_tiles
  · obtain ⟨adds, tile⟩ := takes_part
    obtain ⟨single, no_lag⟩ := lag_of_reduces d adds
    have loaded := d.loaded_of_reduces adds
    have by_k : g.parallelize_k = true := (of_decide_eq_true adds).1
    rw [reduce_phase d adds tile planned]
    intro c working
    obtain ⟨ready, _⟩ := unreduced c working
    refine ⟨ready.congr single ?_ ?_, fun j tile now => ⟨fun more => ?_, ?_⟩⟩
    · exact fun x given => after_tile_frame fun r _ q _ same => by
        rw [same] at given
        exact given
    · exact fun w e => after_tile_frame fun r _ q _ => by simp [Op.target]
    all_goals
      have last : j = mn * g.cluster_k_tiles 0 + (g.cluster_k_tiles 0 - 1) := by
        have some := d.some_k
        rw [Nat.succ_mul] at now
        omega
      have idx_k : ∀ c < g.num_working_clusters, g.idx_k c j = g.cluster_k_tiles 0 - 1 := by
        intro c working
        rw [GemmArgs.idx_k, d.working_k_tiles working, last]
        exact grid_mod (Nat.sub_lt d.some_k Nat.one_pos)
    · rw [idx_k c working, d.working_k_tiles working] at more
      omega
    · intro mine _ r row q column
      obtain rfl : c = 0 := mine.resolve_right fun not => not by_k
      have idx_mn : ∀ c < g.num_working_clusters, g.idx_mn c j = mn := by
        intro c working
        rw [GemmArgs.idx_mn, d.working_k_tiles working, last]
        exact grid_div (Nat.sub_lt d.some_k Nat.one_pos)
      have parts : ∀ c < g.num_working_clusters,
          m (.lc c (g.buff_idx mn) (r * g.tile_n + q)) =
            some (partialSum g A B C c j (g.cluster_k_tiles c) r q) := by
        intro c working
        have computed := (unreduced c working).2 j (by rwa [d.working_num_tiles working,
          ← d.working_num_tiles d.some_working]) now r row q column
        rw [acc_loaded loaded, idx_mn c working, idx_k c working,
          Nat.sub_add_cancel (show 1 ≤ g.cluster_k_tiles 0 from d.some_k)] at computed
        rw [computed, d.working_k_tiles working]
      rw [acc_loaded loaded, idx_mn 0 d.some_working, ← partialSum_together d by_k]
      refine (after_tile (fun r q => .add (.lc 0 (g.buff_idx mn) (r * g.tile_n + q))
        g.num_working_clusters fun c => .lc c (g.buff_idx mn) (r * g.tile_n + q)) ?_ ?_ row
        column).trans ?_
      · intro r _ q column r' _ q' column' same
        injection same with _ _ same
        exact grid_inj column column' same
      · rintro r q r' q' ⟨c, _, same⟩
        injection same with _ _ same
        simp only [Op.target, same]
      · rw [Op.known, if_pos fun c working => by rw [parts c working]; rfl]
        refine congrArg some (Finset.sum_congr rfl fun c member => ?_)
        rw [parts c (Finset.mem_range.mp member)]
        rfl
  · rw [reduce_idle takes_part]
    refine unreduced.settle d fun adds c working j tile now => absurd ?_ takes_part
    refine ⟨adds, ?_⟩
    rw [(lag_of_reduces d adds).2, Nat.succ_mul] at now
    rw [d.working_num_tiles working, GemmArgs.num_tiles] at tile
    by_contra past
    have beyond := Nat.mul_le_mul_right (g.cluster_k_tiles 0) (Nat.le_of_not_lt past)
    have some := d.some_k
    omega

omit d in
theorem tile_planned (round : mn < g.cluster_m_tiles * g.n_tiles + 2) {p : Phase}
    (member : p ∈ tilePhases g mn) : p ∈ (gemm g).schedule :=
  List.mem_flatMap.mpr ⟨mn, List.mem_range.mpr round, member⟩

omit d in
theorem mem_tilePhases (inside : k < g.cluster_k_tiles 0) :
    .transfer mn k ∈ tilePhases g mn ∧ .compute mn k ∈ tilePhases g mn := by
  constructor <;> refine List.mem_append_left _ (List.mem_flatMap.mpr
    ⟨k, List.mem_range.mpr inside, ?_⟩) <;> simp

section

variable (between : Between g A B C (mn * g.cluster_k_tiles 0) m)
    (round : mn < g.cluster_m_tiles * g.n_tiles + 2)

include between round

/-- The first tiles of `k` of a tile of `C`. -/
theorem Between.tiles (within : k ≤ g.cluster_k_tiles 0) :
    (k < g.cluster_k_tiles 0 → Between g A B C (mn * g.cluster_k_tiles 0 + k)
      (after ((gemm g).phase (known F))
        ((List.range k).flatMap fun k => [.transfer mn k, .compute mn k]) m)) ∧
    (0 < k → Unreduced g A B C (mn * g.cluster_k_tiles 0 + k) (after ((gemm g).phase (known F))
        ((List.range k).flatMap fun k => [.transfer mn k, .compute mn k]) m)) := by
  rw [after_range]
  refine loop_invariant (fun k m =>
    (k < g.cluster_k_tiles 0 → Between g A B C (mn * g.cluster_k_tiles 0 + k) m) ∧
      (0 < k → Unreduced g A B C (mn * g.cluster_k_tiles 0 + k) m))
    ⟨fun _ => between, fun none => absurd none (Nat.lt_irrefl 0)⟩ fun k before m so_far => ?_
  have inside := Nat.lt_of_lt_of_le before within
  have next := (so_far.1 inside).iteration d inside (tile_planned round (mem_tilePhases inside).1)
    (tile_planned round (mem_tilePhases inside).2)
  refine ⟨fun more => next.settle d fun adds c working j tile now last => ?_, fun _ => next⟩
  rw [(lag_of_reduces d adds).2] at now
  have tile_k : g.idx_k c j = k := by
    rw [show j = mn * g.cluster_k_tiles 0 + k by omega, GemmArgs.idx_k, d.working_k_tiles working]
    exact grid_mod inside
  rw [tile_k, d.working_k_tiles working] at last
  omega

/-- The phases of a tile of `C`. -/
theorem Between.tile : Between g A B C ((mn + 1) * g.cluster_k_tiles 0)
      (after ((gemm g).phase (known F)) (tilePhases g mn) m) := by
  rw [tilePhases, after_append, after_cons, after_cons, after_nil, gather_phase]
  have unreduced := (between.tiles d round le_rfl).2 d.some_k
  rw [← Nat.succ_mul] at unreduced
  exact unreduced.reduce d (tile_planned round (by simp [tilePhases]))

end

theorem Between.rounds (between : Between g A B C 0 m)
    (rounds : mn ≤ g.cluster_m_tiles * g.n_tiles + 2) :
    Between g A B C (mn * g.cluster_k_tiles 0)
      (after ((gemm g).phase (known F)) ((List.range mn).flatMap (tilePhases g)) m) := by
  rw [after_range]
  refine loop_invariant (fun mn m => Between g A B C (mn * g.cluster_k_tiles 0) m) ?_ ?_
  · rwa [Nat.zero_mul]
  · exact fun mn round m between => between.tile d (Nat.lt_of_lt_of_le round rounds)

section

variable (sources : ∀ c < g.num_working_clusters, Sources g A B c m)
    (fresh : ∀ c < g.num_working_clusters, ∀ j < g.num_tiles c, ∀ r < g.tile_m, ∀ q < g.tile_n, m (g.elemC c j r q) = some (C (g.row c j r) (g.column c j q)))

include sources fresh

omit d in
/-- Before the first iteration. -/
theorem between_start : Between g A B C 0 m := by
  intro c working
  refine ⟨⟨sources c working, ?_, ?_, fun _ j tile _ _ => fresh c working j tile, ?_⟩, ?_⟩
  · exact fun _ j _ now => absurd now (Nat.succ_ne_zero j).symm
  · exact fun _ j _ now => absurd now (Nat.succ_ne_zero j).symm
  · exact fun _ j _ _ earlier => absurd earlier (Nat.not_lt_zero _)
  · exact fun j _ now => absurd now (Nat.succ_ne_zero _).symm

/-- **The phases leave the product**, known as such. -/
theorem product_known
    (working : c < g.num_working_clusters) (mine : c = 0 ∨ ¬g.parallelize_k) {j r q : Nat}
    (tile : j < g.num_tiles c) (last : g.idx_k c j + 1 = g.cluster_k_tiles c)
    (row : r < g.tile_m) (column : q < g.tile_n) :
    (gemm g).reference (known F) m (gemm g).schedule.length (g.elemC c j r q) =
      some (product g A B C (g.row c j r) (g.column c j q)) := by
  have all : Between g A B C ((g.cluster_m_tiles * g.n_tiles + 2) * g.cluster_k_tiles 0)
      ((gemm g).reference (known F) m (gemm g).schedule.length) := by
    rw [Program.reference, List.take_length]
    exact (between_start sources fresh).rounds d le_rfl
  refine (all c working).ready.final mine j tile last ?_ r row q column
  rw [d.working_num_tiles working, GemmArgs.num_tiles] at tile
  have lag : g.lag ≤ 1 := by
    unfold GemmArgs.lag
    split <;> omega
  have some := d.some_k
  rw [Nat.add_mul]
  omega

end

/-- The memory with which an iteration begins. -/
theorem between_reference (between : Between g A B C 0 m) {b : Nat}
    (here : (gemm g).schedule[b]? = some (.transfer mn k)) :
    k < g.cluster_k_tiles 0 ∧ mn < g.cluster_m_tiles * g.n_tiles + 2 ∧
      Between g A B C (mn * g.cluster_k_tiles 0 + k) ((gemm g).reference (known F) m b) := by
  obtain ⟨mn', round, r, part, rfl, _, tile⟩ := schedule_getElem? here
  rcases tilePhases_cases tile with ⟨k', inside, ⟨rfl, is⟩ | ⟨_, ⟨⟩⟩⟩ | ⟨_, ⟨⟩⟩ | ⟨_, ⟨⟩⟩
  obtain ⟨rfl, rfl⟩ : mn = mn' ∧ k = k' := by simpa using is
  have pairs : ∀ k, [Phase.transfer mn k, Phase.compute mn k].length = 2 := fun _ => rfl
  have first : (tilePhases g mn).take (k * 2) =
      (List.range k).flatMap fun k => [.transfer mn k, .compute mn k] := by
    rw [tilePhases, List.take_append_of_le_length (by rw [length_rounds pairs]; omega)]
    exact (take_rounds pairs inside (Nat.zero_le 2)).trans (List.append_nil _)
  refine ⟨inside, round, ?_⟩
  rw [Program.reference, gemm, take_rounds (fun _ => length_tilePhases) round (by omega),
    after_append, first]
  exact ((between.rounds d round.le).tiles d round inside.le).1 inside

end Phases

/-! ## The product in memory -/

section Memory

variable {F : Type} [CommSemiring F] {g : GemmArgs} {A B C : Nat → Nat → F} {c j r q : Nat}

/-- How many copies of `C` are told apart. -/
def copies (g : GemmArgs) : Nat :=
  if g.parallelize_m ∨ g.parallelize_k then 1 else g.snrt_cluster_num

section

variable (d : Distributes g) (working : c < g.num_working_clusters)

include d working

theorem Distributes.copy_lt : g.copy c < copies g := by
  unfold GemmArgs.copy copies
  split
  · exact Nat.one_pos
  · exact Nat.lt_of_lt_of_le working d.working_le

theorem Distributes.row_lt (tile : j < g.num_tiles c) (row : r < g.tile_m) : g.row c j r < g.m := by
  rw [← d.m_eq]
  refine grid_lt ?_ row
  have inside := idx_m_lt tile
  rw [GemmArgs.idx_m_abs]
  by_cases by_m : g.parallelize_m = true
  · have all : g.snrt_cluster_num * g.cluster_m_tiles = g.m_tiles := by
      rw [GemmArgs.cluster_m_tiles, if_pos by_m, Nat.mul_div_cancel' (d.m_dealt by_m)]
    rw [if_pos by_m, Nat.add_comm, ← all]
    exact grid_lt (Nat.lt_of_lt_of_le working d.working_le) inside
  · rw [GemmArgs.cluster_m_tiles, if_neg by_m] at inside
    rwa [if_neg by_m]

/-- A tile of `C`, with its last tile of `k`. -/
theorem Distributes.some_tile {x b : Nat} (idx_m : x < g.cluster_m_tiles) (idx_n : b < g.n_tiles) :
    ∃ j < g.num_tiles c, g.idx_k c j + 1 = g.cluster_k_tiles c ∧ g.idx_n c j = b ∧
      g.idx_mn c j / g.n_tiles = x := by
  have some : 0 < g.cluster_k_tiles c := by
    rw [d.working_k_tiles working]
    exact d.some_k
  have last : g.cluster_k_tiles c - 1 < g.cluster_k_tiles c := Nat.sub_lt some Nat.one_pos
  refine ⟨g.iteration c (x * g.n_tiles + b) (g.cluster_k_tiles c - 1), ?_, ?_, ?_, ?_⟩
  · exact grid_lt (grid_lt idx_m idx_n) last
  · rw [iteration_idx_k last]
    omega
  · rw [GemmArgs.idx_n, iteration_idx_mn last]
    exact grid_mod idx_n
  · rw [iteration_idx_mn last]
    exact grid_div idx_n

end

/-- **Every element is in a tile**, whichever copy of `C` it is in. -/
theorem Distributes.covered (d : Distributes g) {w row column : Nat} (copy : w < copies g)
    (inside : row < g.m) (inside' : column < g.n) :
    ∃ c < g.num_working_clusters, (c = 0 ∨ ¬g.parallelize_k) ∧ g.copy c = w ∧
      ∃ j < g.num_tiles c, g.idx_k c j + 1 = g.cluster_k_tiles c ∧ ∃ r < g.tile_m, ∃ q < g.tile_n,
        g.row c j r = row ∧ g.column c j q = column := by
  rw [← d.m_eq, Nat.mul_comm] at inside
  rw [← d.n_eq, Nat.mul_comm] at inside'
  have tile_m : 0 < g.tile_m := Nat.pos_of_mul_pos_right (Nat.zero_lt_of_lt inside)
  have tile_n : 0 < g.tile_n := Nat.pos_of_mul_pos_right (Nat.zero_lt_of_lt inside')
  have m_tile : row / g.tile_m < g.m_tiles := Nat.div_lt_of_lt_mul inside
  have n_tile : column / g.tile_n < g.n_tiles := Nat.div_lt_of_lt_mul inside'
  have cluster : ∃ c < g.num_working_clusters, (c = 0 ∨ ¬g.parallelize_k) ∧ g.copy c = w ∧
      ∃ x < g.cluster_m_tiles,
        x + (if g.parallelize_m then c * g.cluster_m_tiles else 0) = row / g.tile_m := by
    by_cases by_m : g.parallelize_m = true
    · have alone : ¬g.parallelize_k := fun by_k => d.one_way ⟨by_m, by_k⟩
      have all : g.snrt_cluster_num * g.cluster_m_tiles = g.m_tiles := by
        rw [GemmArgs.cluster_m_tiles, if_pos by_m, Nat.mul_div_cancel' (d.m_dealt by_m)]
      rw [← all, Nat.mul_comm] at m_tile
      have working : g.num_working_clusters = g.snrt_cluster_num := if_neg fun by_k => alone by_k.1
      rw [copies, if_pos (.inl by_m), Nat.lt_one_iff] at copy
      have some : 0 < g.cluster_m_tiles := Nat.pos_of_mul_pos_right (Nat.zero_lt_of_lt m_tile)
      refine ⟨row / g.tile_m / g.cluster_m_tiles, working ▸ Nat.div_lt_of_lt_mul m_tile, .inr alone,
        ?_, row / g.tile_m % g.cluster_m_tiles, Nat.mod_lt _ some, ?_⟩
      · rw [GemmArgs.copy, if_pos (.inl by_m), copy]
      · rw [if_pos by_m, Nat.mul_comm]
        exact Nat.mod_add_div _ _
    · have all : g.cluster_m_tiles = g.m_tiles := if_neg by_m
      by_cases by_k : g.parallelize_k = true
      · rw [copies, if_pos (.inr by_k), Nat.lt_one_iff] at copy
        refine ⟨0, d.some_working, .inl rfl, ?_, row / g.tile_m, all ▸ m_tile, ?_⟩
        · rw [GemmArgs.copy, if_pos (.inr by_k), copy]
        · rw [if_neg by_m, Nat.add_zero]
      · have alike : ¬(g.parallelize_m ∨ g.parallelize_k) := fun par => par.elim by_m by_k
        have working : g.num_working_clusters = g.snrt_cluster_num := if_neg fun is => by_k is.1
        rw [copies, if_neg alike] at copy
        refine ⟨w, working ▸ copy, .inr by_k, if_neg alike, row / g.tile_m, all ▸ m_tile, ?_⟩
        rw [if_neg by_m, Nat.add_zero]
  obtain ⟨c, working, mine, is, x, idx_m, row_tile⟩ := cluster
  obtain ⟨j, tile, last, idx_n, idx_mn⟩ := d.some_tile working idx_m n_tile
  refine ⟨c, working, mine, is, j, tile, last, row % g.tile_m, Nat.mod_lt _ tile_m,
    column % g.tile_n, Nat.mod_lt _ tile_n, ?_, ?_⟩
  · rw [GemmArgs.row, GemmArgs.idx_m_abs, idx_mn, row_tile, Nat.mul_comm]
    exact Nat.div_add_mod _ _
  · rw [GemmArgs.column, idx_n, Nat.mul_comm]
    exact Nat.div_add_mod _ _

/-! Only private words count -/

/-- A step of the code relies on private words only, and writes a copy that there is. -/
def Fair (g : GemmArgs) (o : Op) : Prop :=
  Sound (copies g) o ∧ ∀ w e, o.target = .c w e → w < copies g

theorem Distributes.private_elem (d : Distributes g) (working : c < g.num_working_clusters)
    (one : copies g = 1) : Private (copies g) (g.elemC c j r q) := by
  have below := d.copy_lt working
  exact ⟨one, by omega⟩

theorem private_loaded (loaded : g.load_c) {W : Nat} : Private W (g.acc c j r q) := by
  rw [acc_loaded loaded]
  trivial

theorem private_operand {W e : Nat} :
    Private W (g.la c (g.buff_idx j) e) ∧ Private W (g.lb c (g.buff_idx j) e) := by
  unfold GemmArgs.la GemmArgs.lb
  constructor <;> split <;> trivial

section

variable (d : Distributes g) (working : c < g.num_working_clusters)

include d working

/-- With several copies of `C`, none of them is read. -/
theorem Distributes.one_copy
    (reads : g.beta ≠ 0 ∨ ¬g.load_c ∧ g.idx_k_abs c j ≠ 0) : copies g = 1 := by
  unfold copies
  split
  · rfl
  · next alike =>
      obtain ⟨by_m, by_k⟩ := not_or.mp alike
      by_contra several
      obtain ⟨zero, once⟩ := d.alike by_m by_k several
      rcases reads with scaled | ⟨in_place, more⟩
      · exact scaled zero
      · exact more (d.idx_k_abs_single (once.resolve_left in_place) working)

theorem Distributes.fair_transfer
    {i : Nat} (iter : i < g.num_iters c) : ∀ o ∈ transferCode g c i, Fair g o := by
  intro o member
  have copy := d.copy_lt working
  have elem : ∀ j r q w e, g.elemC c j r q = .c w e → w < copies g := by
    rintro j r q w e ⟨rfl, _⟩
    exact copy
  have acc : g.load_c → ∀ r q w e, g.acc c i r q ≠ .c w e := by
    intro loaded r q w e same
    rw [acc_loaded loaded] at same
    cases same
  rw [transferCode, List.mem_append] at member
  rcases member with stored | loads
  · split at stored
    · next before =>
        rw [d.storeC_eq] at stored
        split at stored
        · obtain ⟨r, _, q, _, rfl⟩ := mem_tileOps.mp stored
          refine ⟨fun _ => ?_, elem _ r q⟩
          by_cases loaded : g.load_c = true
          · exact .inl (private_loaded loaded)
          · refine .inr (d.acc_in_place loaded working ?_).symm
            unfold GemmArgs.num_iters at iter
            omega
        · cases stored
    · cases stored
  · split at loads
    · rw [List.mem_append, List.mem_append] at loads
      rcases loads with (loads | loads) | loads
      · rw [d.loadA_eq working] at loads
        split at loads
        · obtain ⟨r, _, p, _, rfl⟩ := mem_tileOps.mp loads
          exact ⟨fun _ => .inl trivial, fun _ _ same => by cases same⟩
        · cases loads
      · rw [d.loadB_eq] at loads
        split at loads
        · split at loads
          · obtain ⟨q, _, p, _, rfl⟩ := mem_tileOps.mp loads
            exact ⟨fun _ => .inl trivial, fun _ _ same => by cases same⟩
          · obtain ⟨p, _, q, _, rfl⟩ := mem_tileOps.mp loads
            exact ⟨fun _ => .inl trivial, fun _ _ same => by cases same⟩
        · cases loads
      · rw [d.loadC_eq] at loads
        split at loads
        · next loaded =>
            split at loads
            · obtain ⟨r, _, q, _, rfl⟩ := mem_tileOps.mp loads
              refine ⟨fun used => .inl ?_, fun w e same => absurd same (acc loaded r q w e)⟩
              exact d.private_elem working
                (d.one_copy (j := i) working (.inl (of_decide_eq_true used)))
            · split at loads
              · obtain ⟨r, _, q, _, rfl⟩ := mem_tileOps.mp loads
                exact ⟨trivial, fun w e same => absurd same (acc loaded r q w e)⟩
              · cases loads
        · cases loads
    · cases loads

theorem Distributes.fair_tile (tile : j < g.num_tiles c) : Fair g (multiplyTile g c j r q) := by
  refine ⟨⟨fun scaled => ?_, fun p _ => ⟨private_operand.1, private_operand.2⟩⟩, fun w e same => ?_⟩
  · by_cases loaded : g.load_c = true
    · exact private_loaded loaded
    · rw [d.acc_in_place loaded working tile]
      refine d.private_elem working (d.one_copy (j := j) working ?_)
      by_cases abs : g.idx_k_abs c j = 0
      · rw [if_pos abs] at scaled
        exact .inl scaled
      · exact .inr ⟨loaded, abs⟩
  · rw [show (multiplyTile g c j r q).target = g.acc c j r q from rfl] at same
    by_cases loaded : g.load_c = true
    · rw [acc_loaded loaded] at same
      cases same
    · rw [d.acc_in_place loaded working tile] at same
      injection same with same
      exact same ▸ d.copy_lt working

end

theorem Distributes.fair (d : Distributes g) {p : Phase} {agent : Nat}
    (below : agent < g.snrt_cluster_num * g.cores) : ∀ o ∈ code g p agent, Fair g o := by
  have cluster := cluster_lt below
  intro o member
  cases p with
  | transfer mn k =>
    simp only [code] at member
    split at member
    · next acts =>
        exact d.fair_transfer (d.working_of_active cluster acts.2) acts.2.2 o member
    · cases member
  | compute mn k =>
    simp only [code] at member
    split at member
    · next acts =>
        unfold computeCode at member
        split at member
        · next tile =>
            have compute : agent % g.cores < g.snrt_cluster_compute_core_num :=
              Nat.lt_of_le_of_ne (Nat.le_of_lt_succ core_lt) acts.1
            obtain ⟨r, _, _, q, _, rfl⟩ := (d.mem_tileCode compute).mp member
            exact d.fair_tile (d.working_of_active cluster acts.2) tile.2
        · cases member
    · cases member
  | gather mn => cases member
  | reduce mn =>
    simp only [code] at member
    split at member
    · unfold reduceCode at member
      split at member
      · next takes_part =>
          have loaded := d.loaded_of_reduces takes_part.1
          have buffer : ∀ c e, g.lc c (g.buff_idx mn) e = .lc c (g.buff_idx mn) e :=
            fun c e => if_neg fun in_place => in_place.1 loaded
          simp only [lineOps, List.mem_map, buffer] at member
          obtain ⟨e, _, rfl⟩ := member
          exact ⟨fun _ _ => trivial, fun _ _ same => by cases same⟩
      · cases member
    · cases member

/-- What the memory holds at the start. -/
structure Matrices (g : GemmArgs) (A B C : Nat → Nat → F) (m : Loc → F) : Prop where
  operands : ∀ c < g.num_working_clusters, Sources g A B c fun x => some (m (shared x))
  c : ∀ row < g.m, ∀ column < g.n, m (.c 0 (row * g.n + column)) = C row column

section Runs

variable {m : Loc → F} {s : State Loc F} (d : Distributes g) (matrices : Matrices g A B C m)
  (reached : ((gemm g).machine (words F)).Reachable (Program.start m) s)
include d matrices reached

omit [CommSemiring F] reached in
theorem given_elem {c j r q : Nat} (working : c < g.num_working_clusters) (tile : j < g.num_tiles c)
    (row : r < g.tile_m) (column : q < g.tile_n) :
    some (m (shared (g.elemC c j r q))) = some (C (g.row c j r) (g.column c j q)) :=
  congrArg some (matrices.c _ (d.row_lt working tile row) _ (d.column_lt column))

omit matrices in
/-- What is known along a run is so. -/
theorem known_run : ∃ s', ((gemm g).machine (known F)).Reaches
      ((gemm g).Awaits fun _ _ _ => false) (Program.start fun x => some (m (shared x))) s' ∧
    s'.place = s.place ∧ Knows (copies g) s.memory s'.memory := by
  have some_copy : 0 < copies g := Nat.zero_lt_of_lt (d.copy_lt d.some_working)
  have given : Knows (copies g) m fun x => some (m (shared x)) :=
    ⟨fun x other v sure => shared_of_ne other ▸ Option.some.inj sure,
      fun e => ⟨0, some_copy, fun v sure => Option.some.inj sure⟩⟩
  obtain ⟨s', reached', place, knows⟩ := Program.reachable_refines (known F)
    (Knows (copies g)) (fun p _ i below o member m m' knows =>
      knows_step knows (d.fair below o member).1 (d.fair below o member).2) given reached
  exact ⟨s', reached'.mono fun _ _ _ _ _ _ _ _ waits => (by cases waits), place, knows⟩

/-- **The product**, in every run in which all cores are through. -/
theorem gemm_product
    (through : ∀ i < (gemm g).agents, (gemm g).schedule.length ≤ (s.place i).1) :
    ∀ row < g.m, ∀ column < g.n,
      s.memory (.c 0 (row * g.n + column)) = product g A B C row column := by
  intro row inside column inside'
  obtain ⟨s', reached', place, knows⟩ := known_run d reached
  have memory := Program.memory_done d.raceFree d.guarded reached'
    (Nat.mul_pos d.some_cluster (Nat.succ_pos _)) fun i agent => place ▸ through i agent
  obtain ⟨w, copy, value⟩ := knows.copy (row * g.n + column)
  obtain ⟨c, working, mine, is, j, tile, last, r, row', q, column', rfl, rfl⟩ :=
    d.covered copy inside inside'
  refine value _ ?_
  rw [memory]
  subst is
  exact product_known d matrices.operands (fun c working j tile r row q column =>
    given_elem d matrices working tile row column) working mine tile last row' column'

/-- **Every step of the cores** finds the operands of its tile, and adds the tile to what the
cluster's tiles before have added. -/
theorem gemm_steps {agent mn k : Nat} (below : agent < (gemm g).agents)
    (phase : (gemm g).schedule[(s.place agent).1]? = some (.compute mn k)) {o : Op}
    (action : ((gemm g).code (.compute mn k) agent)[(s.place agent).2]? = some o) :
    ∃ j < g.num_tiles (agent / g.cores), ∃ r < g.tile_m, ∃ q < g.tile_n,
      g.iteration (agent / g.cores) mn k = j + g.lag ∧ o = multiplyTile g (agent / g.cores) j r q ∧
      (∀ p < g.tile_k,
        s.memory (g.la (agent / g.cores) (g.buff_idx j) (r * g.tile_k + p)) =
          A (g.row (agent / g.cores) j r) (g.summand (agent / g.cores) j p) ∧
        s.memory (g.lb (agent / g.cores) (g.buff_idx j) (g.localB p q)) =
          B (g.summand (agent / g.cores) j p) (g.column (agent / g.cores) j q)) ∧
      o.word s.memory = partialSum g A B C (agent / g.cores) j (g.idx_k (agent / g.cores) j + 1) r q := by
  obtain ⟨s', reached', place, knows⟩ := known_run d reached
  have memory := fun x => Program.memory_eq (x := x) d.raceFree d.guarded reached' below
    (place ▸ phase) (place ▸ action)
  rw [place] at memory
  generalize is : agent / g.cores = c at *
  generalize there : (s.place agent).1 = b at *
  -- the code is that of a tile
  have acts : agent % g.cores ≠ g.snrt_cluster_compute_core_num ∧ g.Active c mn k := by
    by_contra idle
    have none : (gemm g).code (.compute mn k) agent = [] := by
      simp only [gemm, code, is, if_neg idle]
    rw [none] at action
    cases action
  have working := d.working_of_active (is ▸ cluster_lt below) acts.2
  have compute : agent % g.cores < g.snrt_cluster_compute_core_num :=
    Nat.lt_of_le_of_ne (Nat.le_of_lt_succ core_lt) acts.1
  have tile : g.lag ≤ g.iteration c mn k ∧ g.iteration c mn k - g.lag < g.num_tiles c := by
    by_contra idle
    have none : (gemm g).code (.compute mn k) agent = [] := by
      simp only [gemm, code, is, computeCode, if_neg idle, ite_self]
    rw [none] at action
    cases action
  obtain ⟨j, lagged⟩ : ∃ j, g.iteration c mn k = j + g.lag := ⟨_, (Nat.sub_add_cancel tile.1).symm⟩
  have tile : j < g.num_tiles c := by
    rw [lagged, Nat.add_sub_cancel] at tile
    exact tile.2
  have code_eq : (gemm g).code (.compute mn k) agent = tileCode g c j (agent % g.cores) := by
    simp only [gemm, code, is, computeCode, if_pos acts]
    rw [lagged, Nat.add_sub_cancel, if_pos ⟨Nat.le_add_left _ _, tile⟩]
  rw [code_eq] at action memory
  obtain ⟨r, row, _, q, column, rfl⟩ := (d.mem_tileCode compute).mp (List.mem_of_getElem? action)
  -- the memory of the phase
  obtain ⟨b, rfl, before⟩ := transfer_before phase
  have start := between_start matrices.operands fun c working j tile r row q column =>
    given_elem d matrices working tile row column
  have loaded := (between_reference d start before).2.2.loaded d (List.mem_of_getElem? before)
    working acts.2
  rw [← Program.reference_succ before] at loaded
  rw [iteration_eq d working] at lagged
  have operands := loaded.operands j tile lagged
  have primed := loaded.primed j tile lagged
  have inside := (List.getElem?_eq_some_iff.mp action).1
  have split : tileCode g c j (agent % g.cores) =
      (tileCode g c j (agent % g.cores)).take (s.place agent).2 ++
        multiplyTile g c j r q :: (tileCode g c j (agent % g.cores)).drop ((s.place agent).2 + 1) := by
    conv_lhs => rw [← List.take_append_drop (s.place agent).2 (tileCode g c j (agent % g.cores)),
      List.drop_eq_getElem_cons inside]
    rw [(List.getElem?_eq_some_iff.mp action).2]
  have seen : ∀ x, (multiplyTile g c j r q).Uses x → s'.memory x =
      (gemm g).reference (known F) (fun x => some (m (shared x))) (b + 1) x := by
    intro x uses
    rw [memory x (.inl uses)]
    have apart := d.nodup_tileCode (c := c) (i := j) compute
    rw [split] at apart
    exact uses_kept apart (fun o' member => d.tileCode_unread compute o' (List.mem_of_mem_take member)) uses
  refine ⟨j, tile, r, row, q, column, by rw [iteration_eq d working, lagged], rfl, ?_, ?_⟩
  · intro p inside
    have la := seen _ (.inr ⟨p, inside, .inl rfl⟩)
    have lb := seen _ (.inr ⟨p, inside, .inr rfl⟩)
    rw [operands.a r row p inside] at la
    rw [operands.b p inside q column] at lb
    refine ⟨knows.word _ ?_ _ la, knows.word _ ?_ _ lb⟩
    · unfold GemmArgs.la
      split <;> simp
    · unfold GemmArgs.lb
      split <;> simp
  · refine knows.value (d.fair_tile working tile).1 (fun _ _ _ same => by cases same) _ ?_
    rw [Op.known_congr _ seen]
    exact multiplyTile_known operands primed row column

end Runs

end Memory

end SnitchCluster.Kernels.GemmTiles
