/-
# Kernels.Batchnorm -- the tiled batch normalisation

`batchnorm_layer` deals out the rows of a map to the clusters and goes through a row in tiles of
`TILE_CI` channels.  Data mover and compute cores run the loops of `Theory.TiledLoops`: the tile of
an iteration is loaded into one half of a buffer while the tile before is computed in the other
half, and stored while the tile after is computed.  The weights are loaded in the first iteration.

A compute core configures its streams in the first iteration only; the later ones find them as they
must be (`regs_ssr`).  What one iteration does is told by elements of the tile: `load_eq`,
`compute_eq` and `store_eq`.
-/
import SnitchCluster.Theory.TiledLoops
import SnitchCluster.Kernels.Gemv

namespace SnitchCluster.Kernels.Batchnorm

open Blas Gemv Theory Theory.Loops Theory.Supersteps

/-! ## The code -/

section Code

inductive BatchnormArray
  | ifmap
  | ofmap
  | gamma
  | beta
  deriving DecidableEq

/-- The arrays in external memory, and the TCDM of the clusters. -/
abbrev Mem := Word BatchnormArray Unit

def tcdm (cluster_id e : Nat) : Mem := .loc () cluster_id e

/-- `batchnorm_layer_t`, as far as the layer depends on it. -/
structure BatchnormLayer where
  CI : Nat
  IH : Nat
  IW : Nat
  TILE_CI : Nat

namespace BatchnormLayer

variable (l : BatchnormLayer)

def ifmap_size : Nat := 2 * l.IW * l.TILE_CI

def weights_size : Nat := l.CI

def ofmap_size : Nat := 2 * l.IW * l.TILE_CI

/-! The pointers into the TCDM. -/

def ifmap (_ : BatchnormLayer) (cluster_id e : Nat) : Mem := tcdm cluster_id e

def gamma (cluster_id e : Nat) : Mem := tcdm cluster_id (l.ifmap_size + e)

def beta (cluster_id e : Nat) : Mem := tcdm cluster_id (l.ifmap_size + l.weights_size + e)

def ofmap (cluster_id e : Nat) : Mem :=
  tcdm cluster_id (l.ifmap_size + l.weights_size + l.weights_size + e)

/-- The iterations of a cluster: the rows dealt to it, in tiles of channels. -/
def items (cluster_num cluster_id : Nat) : List (Nat × Nat) :=
  (dealtRows cluster_num cluster_id l.IH).flatMap fun oh =>
    (dealtRows l.TILE_CI 0 l.CI).map fun ci => (oh, ci)

end BatchnormLayer

variable {F : Type} [CommSemiring F]

/-- The initial setup: the loops of both streams, the outermost first. -/
def setup (setup_SSR : Bool) (OW CI compute_num : Nat) (ssr : List (Nat × Nat)) :
    List (Nat × Nat) :=
  if setup_SSR then [(CI / compute_num, compute_num), (OW, CI)] else ssr

/-- `ssr` is how the streams are configured, `g` and `b` are registers. -/
def batchnorm_fp64 (ssr : List (Nat × Nat)) (g b : Mem) (ifmap gamma beta ofmap : Nat → Mem)
    (OW CI compute_num : Nat) : Variant (Mem × Mem) Mem F where
  steps := (dealtRows compute_num 0 CI).flatMap fun ci =>
    [transfer g (gamma ci), transfer b (beta ci)].map .plain ++
      ((List.range (iterations OW)).map fun _ => .pop fun ft => fmadd ft.2 ft.1 g b) ++
      [].map .plain
  words := ((streamed ssr 0).map ifmap).zip ((streamed ssr 0).map ofmap)
  streams := [(streamed ssr 0).map ifmap, (streamed ssr 0).map ofmap]

/-- What a core keeps from iteration to iteration: `prev` is the data mover's, `ssr` are the streams
of a compute core. -/
structure Regs where
  read_buf : Bool
  write_buf : Bool
  prev_oh : Nat
  prev_ci : Nat
  ssr : List (Nat × Nat)

/-- Before the first iteration: the rest is what it happens to be. -/
def Regs.start (before : Regs) : Regs := { before with read_buf := false, write_buf := false }

variable (l : BatchnormLayer) (cluster_id compute_num : Nat)

def is_first (item : Nat × Nat) : Bool := item.1 == cluster_id && item.2 == 0

/-- At the end of an iteration. -/
def Regs.next (r : Regs) (item : Nat × Nat) : Regs where
  read_buf := !r.read_buf
  write_buf := !r.write_buf
  prev_oh := item.1
  prev_ci := item.2
  ssr := setup (is_first cluster_id item) l.IW l.TILE_CI compute_num r.ssr

/-- The weights in the beginning, and some stuff. -/
def load (r : Regs) (item : Nat × Nat) : List (Step BatchnormArray Unit F) :=
  let dst := fun e => l.ifmap cluster_id (r.write_buf.toNat * l.ifmap_size / 2 + e)
  (if is_first cluster_id item then
    snrt_dma_start_1d (l.gamma cluster_id) (.ext .gamma) l.CI ++
      snrt_dma_start_1d (l.beta cluster_id) (.ext .beta) l.CI
  else []) ++
  if l.TILE_CI = l.CI then
    snrt_dma_start_1d dst (fun e => .ext .ifmap (item.1 * l.IW * l.CI + e)) (l.IW * l.TILE_CI)
  else
    snrt_dma_start_2d dst (fun e => .ext .ifmap (item.1 * l.IW * l.CI + item.2 + e)) l.TILE_CI
      l.TILE_CI l.CI l.IW

/-- The tile before. -/
def store (r : Regs) : List (Step BatchnormArray Unit F) :=
  let src := fun e => l.ofmap cluster_id ((!r.read_buf).toNat * (l.ofmap_size / 2) + e)
  if l.TILE_CI = l.CI then
    snrt_dma_start_1d (fun e => .ext .ofmap (r.prev_oh * l.IW * l.CI + e)) src (l.IW * l.CI)
  else
    snrt_dma_start_2d (fun e => .ext .ofmap (r.prev_oh * l.IW * l.CI + r.prev_ci + e)) src l.TILE_CI
      l.CI l.TILE_CI l.IW

/-- The registers of a core. -/
def register (core r : Nat) : Mem := .own (cluster_id * (compute_num + 1) + (core + 1)) r

/-- The call of a compute core. -/
def call (core : Nat) (r : Regs) (item : Nat × Nat) : Variant (Mem × Mem) Mem F :=
  batchnorm_fp64 (setup (is_first cluster_id item) l.IW l.TILE_CI compute_num r.ssr)
    (register cluster_id compute_num core 0) (register cluster_id compute_num core 1)
    (fun e => l.ifmap cluster_id (r.read_buf.toNat * l.ofmap_size / 2 + core + e))
    (fun e => l.gamma cluster_id (item.2 + core + e))
    (fun e => l.beta cluster_id (item.2 + core + e))
    (fun e => l.ofmap cluster_id (r.write_buf.toNat * l.ofmap_size / 2 + core + e))
    l.IW l.TILE_CI compute_num

def loops : TiledLoop (Step BatchnormArray Unit F) Regs (Nat × Nat) where
  load := load l cluster_id
  compute core r item := (call l cluster_id compute_num core r item).code
  store := store l cluster_id
  next := .next l cluster_id compute_num
  first := is_first cluster_id

/-- The registers of the agents of a cluster. -/
def regs (before : Nat → Regs) (j : Nat) : Regs :=
  .start (before (cluster_id * (compute_num + 1) + j))

/-- All cores; barriers are those of a cluster.  No cluster has more iterations than the first. -/
def batchnorm_layer (cluster_num compute_num : Nat) (before : Nat → Regs) :
    Program Nat (Step BatchnormArray Unit F) :=
  teams cluster_num compute_num ((l.items cluster_num 0).length + 2) fun cluster_id =>
    (loops l cluster_id compute_num).agent (l.items cluster_num cluster_id)
      (regs cluster_id compute_num before)

end Code

/-! ## A channel -/

section Channel

variable {F : Type} [CommSemiring F] {g b scale shift : Mem} {u v : Nat → Mem} {n : Nat}
  {m : Mem → F}

/-- What a core does with a channel of a tile. -/
def channel (g b scale shift : Mem) (u v : Nat → Mem) (n : Nat) :
    List (Step BatchnormArray Unit F) :=
  [transfer g scale, transfer b shift] ++ (List.range n).map fun w => fmadd (v w) (u w) g b

theorem channel_within : Statement.Within
    (fun x => x = scale ∨ x = shift ∨ ∃ w < n, x = u w)
    (fun x => x = g ∨ x = b ∨ ∃ w < n, x = v w)
    (channel g b scale shift u v n : List (Step BatchnormArray Unit F)) := by
  refine Semantics.within_append.mpr ⟨?_, Semantics.within_map.mpr fun w inside => ⟨?_, ?_⟩⟩
  · simp only [Semantics.within_cons, Semantics.within_nil, and_true]
    refine ⟨⟨?_, fun x written => .inl written⟩, ?_, fun x written => .inr (.inl written)⟩
    · rintro x (rfl | rfl | rfl) <;> exact .inl (.inl rfl)
    · rintro x (rfl | rfl | rfl) <;> exact .inl (.inr (.inl rfl))
  · rintro x (rfl | rfl | rfl)
    · exact .inl (.inr (.inr ⟨w, inside, rfl⟩))
    · exact .inr (.inl rfl)
    · exact .inr (.inr (.inl rfl))
  · exact fun x written => .inr (.inr ⟨w, inside, written⟩)

variable (g b scale shift u v) in
/-- **A channel is scaled and shifted.** -/
theorem channel_value (registers : g ≠ b) (shift_g : shift ≠ g)
    (inj : ∀ w < n, ∀ w' < n, v w = v w' → w = w')
    (own : ∀ w < n, v w ≠ g ∧ v w ≠ b ∧ u w ≠ g ∧ u w ≠ b)
    (apart : ∀ w < n, ∀ w' < n, u w ≠ v w') {w : Nat} (inside : w < n) :
    after Statement.run (channel g b scale shift u v n) m (v w) =
      m (u w) * m scale + m shift := by
  have loaded (x : Mem) : after Statement.run
      [transfer g scale, (transfer b shift : Step BatchnormArray Unit F)] m x =
        if x = b then m shift else if x = g then m scale else m x := by
    simp only [after_cons, after_nil, transfer, Statement.assign, Function.update_apply, shift_g,
      if_false]
  rw [channel, after_append]
  refine (after_each (p := v) (fun _ _ _ written => written) inj ?_ inside).trans
    ((Function.update_self _ _ _).trans ?_)
  · rintro r small r' small' _ (same | same | same)
    · exact apart r small r' small' same.symm
    · exact (own r' small').1 same
    · exact (own r' small').2.1 same
  · obtain ⟨-, -, u_g, u_b⟩ := own w inside
    simp only [loaded, u_g, u_b, registers, if_true, if_false]

end Channel

/-! ## The stages by elements -/

section Stages

variable {F : Type} [CommSemiring F] {l : BatchnormLayer} {cluster_id compute_num : Nat}

namespace BatchnormLayer

variable (l : BatchnormLayer)

def tile_size : Nat := l.IW * l.TILE_CI

/-- Where an element of a tile is in the maps. -/
def element (item : Nat × Nat) (e : Nat) : Nat :=
  (item.1 * l.IW + e / l.TILE_CI) * l.CI + (item.2 + e % l.TILE_CI)

end BatchnormLayer

theorem map_size : l.ifmap_size = 2 * l.tile_size ∧ l.ofmap_size = 2 * l.tile_size :=
  ⟨Nat.mul_assoc .., Nat.mul_assoc ..⟩

theorem half (b : Nat) : b * l.ifmap_size / 2 = b * l.tile_size ∧
    b * l.ofmap_size / 2 = b * l.tile_size ∧ l.ofmap_size / 2 = l.tile_size := by
  rw [map_size.1, map_size.2, Nat.mul_left_comm, Nat.mul_div_cancel_left _ (by decide),
    Nat.mul_div_cancel_left _ (by decide)]
  exact ⟨rfl, rfl, rfl⟩

/-- Both layouts: a tile of all channels is consecutive. -/
theorem element_grid {oh ci w k : Nat} (channel : k < l.TILE_CI) :
    l.element (oh, ci) (w * l.TILE_CI + k) = oh * l.IW * l.CI + ci + (w * l.CI + k) := by
  rw [BatchnormLayer.element, grid_div channel, grid_mod channel]
  ring

theorem element_whole {oh e : Nat} (all : l.TILE_CI = l.CI) :
    l.element (oh, 0) e = oh * l.IW * l.CI + e := by
  have parts := Nat.div_add_mod' e l.CI
  rw [BatchnormLayer.element, all, Nat.add_mul, Nat.add_assoc, Nat.zero_add, parts]

/-- What is loaded with the first tile. -/
def loadWeights (l : BatchnormLayer) (cluster_id : Nat) : List (Step BatchnormArray Unit F) :=
  ((List.range l.CI).map fun e => transfer (l.gamma cluster_id e) (.ext .gamma e)) ++
    (List.range l.CI).map fun e => transfer (l.beta cluster_id e) (.ext .beta e)

/-- A tile between the input map and its buffer. -/
def loadTile (l : BatchnormLayer) (cluster_id b : Nat) (item : Nat × Nat) :
    List (Step BatchnormArray Unit F) :=
  (List.range l.tile_size).map fun e =>
    transfer (l.ifmap cluster_id (b * l.tile_size + e)) (.ext .ifmap (l.element item e))

def storeTile (l : BatchnormLayer) (cluster_id b : Nat) (item : Nat × Nat) :
    List (Step BatchnormArray Unit F) :=
  (List.range l.tile_size).map fun e =>
    transfer (.ext .ofmap (l.element item e)) (l.ofmap cluster_id (b * l.tile_size + e))

omit [CommSemiring F] in
/-- **Both ways to load copy the tile.** -/
theorem load_eq {r : Regs} {item : Nat × Nat} {b : Nat} (buf : r.write_buf.toNat = b)
    (room : item.2 + l.TILE_CI ≤ l.CI) :
    (load l cluster_id r item : List (Step BatchnormArray Unit F)) =
      (if is_first cluster_id item then loadWeights l cluster_id else []) ++
        loadTile l cluster_id b item := by
  obtain ⟨oh, ci⟩ := item
  rw [load, buf, (half b).1]
  refine congrArg _ ?_
  split
  · next all =>
      obtain rfl : ci = 0 := by
        have room : ci + l.TILE_CI ≤ l.CI := room
        omega
      exact List.map_congr_left fun e _ => by rw [element_whole all]
  · rw [loadTile, BatchnormLayer.tile_size, range_grid]
    refine List.flatMap_congr fun w _ => List.map_congr_left fun k channel => ?_
    rw [element_grid (List.mem_range.mp channel)]

omit [CommSemiring F] in
theorem store_eq {r : Regs} {oh ci b : Nat} (buf : (!r.read_buf).toNat = b) (row : r.prev_oh = oh)
    (tile : r.prev_ci = ci) (room : ci + l.TILE_CI ≤ l.CI) :
    (store l cluster_id r : List (Step BatchnormArray Unit F)) =
      storeTile l cluster_id b (oh, ci) := by
  rw [store, buf, row, tile, (half 0).2.2]
  split
  · next all =>
      obtain rfl : ci = 0 := by omega
      rw [storeTile, BatchnormLayer.tile_size, all]
      exact List.map_congr_left fun e _ => by rw [element_whole all]
  · rw [storeTile, BatchnormLayer.tile_size, range_grid]
    refine List.flatMap_congr fun w _ => List.map_congr_left fun k channel => ?_
    rw [element_grid (List.mem_range.mp channel)]

/-- The channel `ci` of a tile on a core. -/
def tileChannel (l : BatchnormLayer) (cluster_id compute_num b : Nat) (item : Nat × Nat)
    (core ci : Nat) : List (Step BatchnormArray Unit F) :=
  channel (register cluster_id compute_num core 0) (register cluster_id compute_num core 1)
    (l.gamma cluster_id (item.2 + (ci + core))) (l.beta cluster_id (item.2 + (ci + core)))
    (fun w => l.ifmap cluster_id (b * l.tile_size + (w * l.TILE_CI + (ci + core))))
    (fun w => l.ofmap cluster_id (b * l.tile_size + (w * l.TILE_CI + (ci + core)))) l.IW

/-- **The streams of a call follow its loops.** -/
theorem compute_eq {core b : Nat} {r : Regs} {item : Nat × Nat}
    (read : r.read_buf.toNat = b) (write : r.write_buf.toNat = b)
    (ssr : setup (is_first cluster_id item) l.IW l.TILE_CI compute_num r.ssr =
      [(l.TILE_CI / compute_num, compute_num), (l.IW, l.TILE_CI)])
    (some : 0 < l.TILE_CI) (even : compute_num ∣ l.TILE_CI) (columns : 0 < l.IW)
    (few_columns : l.IW ≤ 2 ^ 32) (few_channels : l.TILE_CI ≤ 2 ^ 32) :
    ((call l cluster_id compute_num core r item).code : List (Step BatchnormArray Unit F)) =
      (dealtRows compute_num 0 l.TILE_CI).flatMap
        (tileChannel l cluster_id compute_num b item core) := by
  have some_core : 0 < compute_num := Nat.pos_of_dvd_of_pos even some
  have own : 0 < l.TILE_CI / compute_num := Nat.div_pos (Nat.le_of_dvd some even) some_core
  have few : l.TILE_CI / compute_num ≤ 2 ^ 32 := (Nat.div_le_self _ _).trans few_channels
  have stream : streamed [(l.TILE_CI / compute_num, compute_num), (l.IW, l.TILE_CI)] 0 =
      (List.range (l.TILE_CI / compute_num)).flatMap fun q => (List.range l.IW).map fun w =>
        q * compute_num + w * l.TILE_CI := by
    simp [streamed, iterations_eq own few, iterations_eq columns few_columns, List.map_eq_flatMap]
  have words : (call l cluster_id compute_num core r item : Variant _ Mem F).words =
      (List.range (l.TILE_CI / compute_num)).flatMap fun q => (List.range l.IW).map fun w =>
        (l.ifmap cluster_id (b * l.tile_size + (w * l.TILE_CI + (q * compute_num + core))),
          l.ofmap cluster_id (b * l.tile_size + (w * l.TILE_CI + (q * compute_num + core)))) := by
    have place (q w : Nat) : b * l.tile_size + core + (q * compute_num + w * l.TILE_CI) =
        b * l.tile_size + (w * l.TILE_CI + (q * compute_num + core)) := by omega
    simp only [call, batchnorm_fp64, ssr, stream, read, write, (half b).2.1, List.map_flatMap,
      List.map_map]
    rw [(zip_flatMap fun q _ => by simp).1]
    simp only [List.zip_map', Function.comp_def, place]
  have one (q : Nat) := executed_around
    [transfer (register cluster_id compute_num core 0)
        (l.gamma cluster_id (item.2 + core + (q * compute_num + 0))),
      transfer (register cluster_id compute_num core 1)
        (l.beta cluster_id (item.2 + core + (q * compute_num + 0)))] []
    (fun ft : Mem × Mem => (fmadd ft.2 ft.1 (register cluster_id compute_num core 0)
      (register cluster_id compute_num core 1) : Step BatchnormArray Unit F)) (n := l.IW)
    fun w => (l.ifmap cluster_id (b * l.tile_size + (w * l.TILE_CI + (q * compute_num + core))),
      l.ofmap cluster_id (b * l.tile_size + (w * l.TILE_CI + (q * compute_num + core))))
  obtain ⟨channels, -⟩ := executed_flatMap (n := l.TILE_CI / compute_num) _ _ fun q _ => (one q).2
  rw [Variant.code, words, dealtRows_whole even, List.flatMap_map]
  simp only [call, batchnorm_fp64, dealtRows_whole even, List.flatMap_map,
    iterations_eq columns few_columns]
  refine channels.trans (List.flatMap_congr fun q _ => ?_)
  rw [(one q).1, tileChannel, channel, List.append_nil, Nat.add_zero, Nat.add_assoc item.2,
    Nat.add_comm core]

end Stages

/-! ## The iterations of a cluster -/

section Iterations

variable {F : Type} [CommSemiring F] {l : BatchnormLayer} {cluster_num cluster_id compute_num : Nat}

theorem mem_items {oh ci : Nat} (cluster : cluster_id < cluster_num) (some : 0 < l.TILE_CI)
    (whole : l.TILE_CI ∣ l.CI) : (oh, ci) ∈ l.items cluster_num cluster_id ↔
      (oh < l.IH ∧ oh % cluster_num = cluster_id) ∧ l.TILE_CI ∣ ci ∧ ci + l.TILE_CI ≤ l.CI := by
  simp only [BatchnormLayer.items, List.mem_flatMap, List.mem_map, Prod.mk.injEq]
  constructor
  · rintro ⟨_, row, _, dealt, rfl, rfl⟩
    exact ⟨(mem_dealtRows cluster).mp row, (mem_columns some whole).mp dealt⟩
  · rintro ⟨row, channels⟩
    exact ⟨oh, (mem_dealtRows cluster).mpr row, ci, (mem_columns some whole).mpr channels, rfl, rfl⟩

/-- The first of the rows or tiles that are dealt. -/
theorem dealtRows_first {num core n : Nat} (worker : core < num) (some : core < n) :
    ∃ rest, dealtRows num core n = core :: rest := by
  have count : n / num + (if core < n % num then 1 else 0) ≠ 0 := by
    intro none
    have small : n < num := (Nat.div_eq_zero_iff_lt (Nat.zero_lt_of_lt worker)).mp
      (Nat.add_eq_zero_iff.mp none).1
    rw [Nat.mod_eq_of_lt small, if_pos some] at none
    exact Nat.succ_ne_zero _ none
  obtain ⟨k, count⟩ := Nat.exists_eq_succ_of_ne_zero count
  rw [dealtRows, count, List.range_succ_eq_map, List.map_cons, Nat.zero_mul, Nat.zero_add]
  exact ⟨_, rfl⟩

/-- A cluster with a row has a first iteration, and can tell it. -/
theorem items_first (cluster : cluster_id < cluster_num) (row : cluster_id < l.IH)
    (channels : 0 < l.CI) (whole : l.TILE_CI ∣ l.CI) :
    l.items cluster_num cluster_id ≠ [] ∧
      ∀ t, ∀ item ∈ (l.items cluster_num cluster_id)[t]?,
        is_first cluster_id item = true ↔ t = 0 := by
  have some : 0 < l.TILE_CI := Nat.pos_of_dvd_of_pos whole channels
  obtain ⟨rows, first⟩ := dealtRows_first cluster row
  obtain ⟨tiles, first'⟩ := dealtRows_first some channels
  have nodup : (l.items cluster_num cluster_id).Nodup := by
    have pairs : l.items cluster_num cluster_id =
        dealtRows cluster_num cluster_id l.IH ×ˢ dealtRows l.TILE_CI 0 l.CI := rfl
    rw [pairs]
    exact (nodup_dealtRows cluster).product (nodup_dealtRows some)
  obtain ⟨rest, list⟩ : ∃ rest, l.items cluster_num cluster_id = (cluster_id, 0) :: rest := by
    rw [BatchnormLayer.items, first, first']
    exact ⟨_, rfl⟩
  rw [list] at nodup ⊢
  refine ⟨List.cons_ne_nil _ _, fun t item here => ?_⟩
  have told : is_first cluster_id item = true ↔ item = (cluster_id, 0) := by
    rw [is_first, Bool.and_eq_true, beq_iff_eq, beq_iff_eq, Prod.ext_iff]
  rw [told]
  cases t with
  | zero => simpa using here.symm
  | succ t =>
    refine iff_of_false ?_ (Nat.succ_ne_zero t)
    rintro rfl
    exact (List.nodup_cons.mp nodup).1 (List.mem_of_getElem? here)

/-- No cluster has more iterations than the first. -/
theorem items_length :
    (l.items cluster_num cluster_id).length ≤ (l.items cluster_num 0).length := by
  have rows : (dealtRows cluster_num cluster_id l.IH).length ≤
      (dealtRows cluster_num 0 l.IH).length := by
    simp only [dealtRows, List.length_map, List.length_range]
    split
    · rw [if_pos (by omega)]
    · exact Nat.add_le_add_left (Nat.zero_le _) _
  simp only [BatchnormLayer.items, List.length_flatMap, List.length_map, List.map_const',
    List.sum_replicate_nat]
  exact Nat.mul_le_mul_right _ rows

/-! ### The registers -/

section Regs

variable {items : List (Nat × Nat)} {r : Regs} {item : Nat × Nat} {t : Nat}

variable (F l cluster_id compute_num) in
/-- **Both indices name the buffers in turn.** -/
theorem regs_buf (start : r.read_buf = false ∧ r.write_buf = false) (inside : t ≤ items.length) :
    (((loops l cluster_id compute_num : TiledLoop (Step _ _ F) _ _).regsAt items r t).read_buf.toNat
        = t % 2) ∧
      ((loops l cluster_id compute_num : TiledLoop (Step _ _ F) _ _).regsAt items
        r t).write_buf.toNat = t % 2 := by
  have flip : ∀ b : Bool, (!b).toNat = (b.toNat + 1) % 2 := by decide
  induction t with
  | zero => simp [start]
  | succ t ih =>
    obtain ⟨read, write⟩ := ih (Nat.le_of_succ_le inside)
    have here : items[t]? = some items[t] := List.getElem?_eq_getElem inside
    rw [TiledLoop.regsAt_succ here]
    simp only [loops, Regs.next, flip]
    rw [loops] at read write
    rw [read, write]
    omega

variable (F l cluster_id compute_num) in
/-- Iteration `t + 1` finds the item before. -/
theorem regs_prev (here : items[t]? = some item) :
    ((loops l cluster_id compute_num : TiledLoop (Step _ _ F) _ _).regsAt items r
        (t + 1)).prev_oh = item.1 ∧
      ((loops l cluster_id compute_num : TiledLoop (Step _ _ F) _ _).regsAt items r
        (t + 1)).prev_ci = item.2 := by
  rw [TiledLoop.regsAt_succ here]
  exact ⟨rfl, rfl⟩

variable (F l cluster_id compute_num) in
/-- **Every iteration finds the streams configured**, by the first at the latest. -/
theorem regs_ssr (first : ∀ t, ∀ item ∈ items[t]?, is_first cluster_id item = true ↔ t = 0)
    (here : items[t]? = some item) :
    setup (is_first cluster_id item) l.IW l.TILE_CI compute_num
        ((loops l cluster_id compute_num : TiledLoop (Step _ _ F) _ _).regsAt items r t).ssr =
      [(l.TILE_CI / compute_num, compute_num), (l.IW, l.TILE_CI)] := by
  induction t generalizing item with
  | zero => rw [setup, if_pos ((first 0 item here).mpr rfl)]
  | succ t ih =>
    have inside : t < items.length := Nat.lt_of_succ_lt (List.getElem?_eq_some_iff.mp here).1
    have before : items[t]? = some items[t] := List.getElem?_eq_getElem inside
    have later : is_first cluster_id item ≠ true := fun is_first =>
      Nat.succ_ne_zero t ((first (t + 1) item here).mp is_first)
    rw [TiledLoop.regsAt_succ before, setup, if_neg later]
    exact ih before

end Regs

end Iterations

end SnitchCluster.Kernels.Batchnorm
