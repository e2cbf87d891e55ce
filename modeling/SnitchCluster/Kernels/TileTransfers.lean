/-
# Kernels.TileTransfers -- tiles that are loaded, computed and stored

What the double-buffered jobs share.  The data mover copies tiles between arrays in external
memory and buffers in the TCDM, of which there are two sets; the compute cores run a kernel on one
set.  A kernel is anything that reads the operands of its set and writes the results, each core a
part of its own (`TileKernel`).

A job is a pipeline over its tiles.  If its transfers stay within their tiles and buffers
(`Transfers`), what an iteration overlaps is independent, whatever the kernel
(`Transfers.apart`).
-/
import SnitchCluster.Theory.Pipelines

namespace SnitchCluster.Kernels.Blas

open Theory Theory.Loops Theory.Supersteps

/-- Words in memory: the elements of the arrays `E` in external memory, those of the buffers `L` in
the TCDM by set, and what a core has for itself. -/
inductive Word (E L : Type)
  | ext (x : E) (e : Nat)
  | loc (x : L) (buff_idx e : Nat)
  | own (core r : Nat)
  deriving DecidableEq

/-- What is done to words with values in `F`. -/
abbrev Step (E L F : Type) := Statement (Word E L) F

section Transfers

variable {E L F : Type} [DecidableEq E] [DecidableEq L]

/-! ## The transfers of `dma.h`, by elements -/

def transfer (x y : Word E L) : Step E L F := .assign x y y y fun v _ _ => v

/-- `snrt_dma_start_1d` -/
def snrt_dma_start_1d (dst src : Nat → Word E L) (size : Nat) : List (Step E L F) :=
  (List.range size).map fun e => transfer (dst e) (src e)

/-- `snrt_dma_start_2d` -/
def snrt_dma_start_2d (dst src : Nat → Word E L) (size dst_stride src_stride repeat' : Nat) :
    List (Step E L F) :=
  (List.range repeat').flatMap fun r =>
    snrt_dma_start_1d (fun e => dst (r * dst_stride + e)) (fun e => src (r * src_stride + e)) size

def snrt_dma_load_1d_tile (dst src : Nat → Word E L) (tile_idx tile_size : Nat) :
    List (Step E L F) :=
  snrt_dma_start_1d dst (fun e => src (tile_idx * tile_size + e)) tile_size

def snrt_dma_load_2d_tile (dst src : Nat → Word E L)
    (tile_x1_idx tile_x0_idx tile_x1_size tile_x0_size full_x0_size : Nat) : List (Step E L F) :=
  let src_offset := tile_x0_idx * tile_x0_size + tile_x1_idx * tile_x1_size * full_x0_size
  snrt_dma_start_2d dst (fun e => src (src_offset + e)) tile_x0_size tile_x0_size full_x0_size
    tile_x1_size

def snrt_dma_store_2d_tile (dst src : Nat → Word E L)
    (tile_x1_idx tile_x0_idx tile_x1_size tile_x0_size full_x0_size : Nat) : List (Step E L F) :=
  let dst_offset := tile_x0_idx * tile_x0_size + tile_x1_idx * tile_x1_size * full_x0_size
  snrt_dma_start_2d (fun e => dst (dst_offset + e)) src tile_x0_size full_x0_size tile_x0_size
    tile_x1_size

variable {dst src : Nat → Word E L} {R W : Word E L → Prop}
  {size tile_idx x1 x0 x1_size x0_size full : Nat}

/-- The footprint of a transfer. -/
theorem within_start_1d (reads : ∀ e < size, R (src e)) (writes : ∀ e < size, W (dst e)) :
    Statement.Within R W (snrt_dma_start_1d dst src size : List (Step E L F)) := by
  refine Semantics.within_map.mpr fun e inside => ⟨fun x read => ?_, fun x written => ?_⟩
  · obtain rfl : x = src e := by simpa [transfer, Statement.assign] using read
    exact .inl (reads e inside)
  · obtain rfl : x = dst e := written
    exact writes e inside

theorem within_load_1d (reads : ∀ e < size, R (src (tile_idx * size + e)))
    (writes : ∀ e < size, W (dst e)) :
    Statement.Within R W (snrt_dma_load_1d_tile dst src tile_idx size : List (Step E L F)) :=
  within_start_1d reads writes

/-- Where a tile is in its array. -/
def tileElement (x1 x0 x1_size x0_size full r e : Nat) : Nat :=
  x0 * x0_size + x1 * x1_size * full + (r * full + e)

theorem within_load_2d
    (reads : ∀ r < x1_size, ∀ e < x0_size, R (src (tileElement x1 x0 x1_size x0_size full r e)))
    (writes : ∀ r < x1_size, ∀ e < x0_size, W (dst (r * x0_size + e))) :
    Statement.Within R W
      (snrt_dma_load_2d_tile dst src x1 x0 x1_size x0_size full : List (Step E L F)) :=
  Semantics.within_flatMap.mpr fun r row => within_start_1d (reads r row) (writes r row)

theorem within_store_2d (reads : ∀ r < x1_size, ∀ e < x0_size, R (src (r * x0_size + e)))
    (writes : ∀ r < x1_size, ∀ e < x0_size, W (dst (tileElement x1 x0 x1_size x0_size full r e))) :
    Statement.Within R W
      (snrt_dma_store_2d_tile dst src x1 x0 x1_size x0_size full : List (Step E L F)) :=
  Semantics.within_flatMap.mpr fun r row => within_start_1d (reads r row) (writes r row)

omit [DecidableEq E] [DecidableEq L] in
/-- **Tiles do not overlap** in an array of `cols` tiles a row. -/
theorem tileElement_inj {cols y1 y0 r e r' e' : Nat} (column : x0 < cols) (column' : y0 < cols)
    (row : r < x1_size) (row' : r' < x1_size) (inside : e < x0_size) (inside' : e' < x0_size)
    (same : tileElement x1 x0 x1_size x0_size (cols * x0_size) r e =
      tileElement y1 y0 x1_size x0_size (cols * x0_size) r' e') : x1 = y1 ∧ x0 = y0 := by
  have grid : ∀ x1 x0 r e, tileElement x1 x0 x1_size x0_size (cols * x0_size) r e =
      (x1 * x1_size + r) * (cols * x0_size) + (x0 * x0_size + e) := by
    intro x1 x0 r e
    rw [tileElement, Nat.add_mul]
    omega
  rw [grid, grid] at same
  obtain ⟨rows, columns⟩ := grid_inj (grid_lt column inside) (grid_lt column' inside') same
  exact ⟨(grid_inj row row' rows).1, (grid_inj inside inside' columns).1⟩

/-- Tiles counted row by row are told apart. -/
theorem tileIndex_inj {cols t t' : Nat} (rows : t / cols = t' / cols)
    (columns : t % cols = t' % cols) : t = t' := by
  rw [← Nat.div_add_mod t cols, ← Nat.div_add_mod t' cols, rows, columns]

end Transfers

/-! ## Kernels -/

/-- A kernel on a set of buffers, by compute core. -/
structure TileKernel (E L F : Type) (cores : Nat) (operand result : Nat → Word E L → Prop) where
  code : Nat → Nat → List (Step E L F)
  /-- What a core writes of the results. -/
  part : Nat → Nat → Word E L → Prop
  part_result : ∀ b, ∀ core < cores, ∀ x, part b core x → result b x
  part_apart : ∀ b, ∀ core < cores, ∀ core' < cores, core ≠ core' →
    ∀ x, part b core x → ¬part b core' x
  within : ∀ b, ∀ core < cores,
    Statement.Within (operand b) (fun x => part b core x ∨ ∃ r, x = .own core r) (code b core)

/-! ## Jobs -/

section Jobs

variable {E L F : Type} {cores : Nat} {operand result : Nat → Word E L → Prop}

/-- In a buffer. -/
def Word.Local : Word E L → Prop
  | .loc _ _ _ => True
  | _ => False

def Word.External : Word E L → Prop
  | .ext _ _ => True
  | _ => False

/-- The transfers of a pipeline keep to `source` and `target` outside and to `filled` and the
results of their set inside, where the sets are apart. -/
structure Transfers (pl : Pipeline (Step E L F)) (operand result : Nat → Word E L → Prop)
    (source target filled : Nat → Word E L → Prop) : Prop where
  load : ∀ t < pl.count, Statement.Within (source t) (filled t) (pl.load t)
  store : ∀ t < pl.count, Statement.Within (result (t % 2)) (target t) (pl.store t)
  source_ext : ∀ t x, source t x → x.External
  target_ext : ∀ t x, target t x → x.External
  filled_loc : ∀ t x, filled t x → x.Local
  operand_loc : ∀ b x, operand b x → x.Local
  result_loc : ∀ b x, result b x → x.Local
  operand_result : ∀ b b' x, operand b x → ¬result b' x
  /-- The next tile goes to the other set. -/
  filled_other : ∀ t x, filled (t + 1) x → ¬operand (t % 2) x ∧ ¬result (t % 2) x
  result_other : ∀ t x, result ((t + 1) % 2) x → ¬result (t % 2) x
  /-- A tile that was stored is not loaded again. -/
  target_source : ∀ t t', t < t' → t' < pl.count → ∀ x, target t x → ¬source t' x
  /-- A tile is stored before its set is filled again, unless the loads leave the results alone. -/
  stored : pl.storeFirst = false → ∀ t x, filled (t + 2) x → ¬result (t % 2) x

variable {pl : Pipeline (Step E L F)} {source target filled : Nat → Word E L → Prop}
  {kernel : TileKernel E L F cores operand result}

theorem Word.Local.not_external {x : Word E L} (inside : x.Local) : ¬x.External := by
  cases x with
  | loc => exact id
  | ext | own => exact inside.elim

/-- **What an iteration overlaps is independent**, whatever the kernel. -/
theorem Transfers.apart (tr : Transfers pl operand result source target filled)
    (workers : pl.workers = cores) (compute : pl.compute = fun t => kernel.code (t % 2)) :
    pl.Apart Statement.semantics := by
  have touched : ∀ {b core : Nat} {x : Word E L}, core < cores →
      kernel.part b core x ∨ (∃ r, x = .own core r) → ¬x.External := by
    rintro b core x inside (mine | ⟨r, rfl⟩)
    · exact (tr.result_loc b x (kernel.part_result b core inside x mine)).not_external
    · exact id
  constructor
  · intro t later
    refine .of_within (tr.store t (by omega)) (tr.load (t + 1) later) (fun x out => ?_)
      fun x filled => ?_
    · exact ⟨tr.target_source t (t + 1) (Nat.lt_succ_self t) later x out,
        fun filled => (tr.filled_loc _ x filled).not_external (tr.target_ext t x out)⟩
    · exact ⟨(tr.filled_other t x filled).2,
        fun out => (tr.filled_loc _ x filled).not_external (tr.target_ext t x out)⟩
  · intro first t later
    refine .of_within (tr.store t (by omega)) (tr.load (t + 2) later) (fun x out => ?_)
      fun x filled => ?_
    · exact ⟨tr.target_source t (t + 2) (by omega) later x out,
        fun filled => (tr.filled_loc _ x filled).not_external (tr.target_ext t x out)⟩
    · exact ⟨tr.stored first t x filled,
        fun out => (tr.filled_loc _ x filled).not_external (tr.target_ext t x out)⟩
  · intro t later core worker
    rw [workers] at worker
    rw [compute]
    refine .of_within (kernel.within (t % 2) core worker) (tr.load (t + 1) later)
      (fun x mine => ?_) fun x filled => ?_
    · refine ⟨fun read => touched worker mine (tr.source_ext _ x read), fun filled => ?_⟩
      rcases mine with mine | ⟨r, rfl⟩
      · exact (tr.filled_other t x filled).2 (kernel.part_result _ core worker x mine)
      · exact tr.filled_loc _ _ filled
    · refine ⟨(tr.filled_other t x filled).1, fun mine => ?_⟩
      rcases mine with mine | ⟨r, rfl⟩
      · exact (tr.filled_other t x filled).2 (kernel.part_result _ core worker x mine)
      · exact tr.filled_loc _ _ filled
  · intro t later core worker
    rw [workers] at worker
    rw [compute]
    refine .of_within (kernel.within ((t + 1) % 2) core worker) (tr.store t (by omega))
      (fun x mine => ?_) fun x out => ?_
    · refine ⟨fun read => ?_, fun out => touched worker mine (tr.target_ext _ x out)⟩
      rcases mine with mine | ⟨r, rfl⟩
      · exact tr.result_other t x (kernel.part_result _ core worker x mine) read
      · exact tr.result_loc _ _ read
    · exact ⟨fun read => (tr.operand_loc _ x read).not_external (tr.target_ext _ x out),
        fun mine => touched worker mine (tr.target_ext _ x out)⟩
  · intro t inside core worker core' worker' other
    rw [workers] at worker worker'
    rw [compute]
    have sides : ∀ {core core' : Nat}, core < cores → core' < cores → core ≠ core' → ∀ x,
        kernel.part (t % 2) core x ∨ (∃ r, x = .own core r) →
          ¬operand (t % 2) x ∧ ¬(kernel.part (t % 2) core' x ∨ ∃ r, x = .own core' r) := by
      rintro core core' worker worker' other x (mine | ⟨r, rfl⟩)
      · have here := kernel.part_result _ core worker x mine
        refine ⟨fun read => tr.operand_result _ _ x read here, ?_⟩
        rintro (theirs | ⟨r, rfl⟩)
        · exact kernel.part_apart _ core worker core' worker' other x mine theirs
        · exact tr.result_loc _ _ here
      · refine ⟨tr.operand_loc _ _, ?_⟩
        rintro (theirs | ⟨r', same⟩)
        · exact tr.result_loc _ _ (kernel.part_result _ core' worker' _ theirs)
        · injection same with same
          exact other same
    exact .of_within (kernel.within _ core worker) (kernel.within _ core' worker')
      (sides worker worker' other) (sides worker' worker other.symm)

end Jobs

end SnitchCluster.Kernels.Blas
