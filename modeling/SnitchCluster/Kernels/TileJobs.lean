/-
# Kernels.TileJobs -- the double-buffered jobs

`syrk_job`, `doitgen_job` and `axpy_job`, after the job arguments are in the TCDM.  In iteration
`i` the data mover loads tile `i` and stores tile `i - 2`, and the compute cores run the kernel on
tile `i - 1`; buffers are switched with every tile.  `syrk_job` stores before it loads, since it
loads tiles of `C` into the buffer that it stores from.

Whatever the kernel, every run leaves what the tiles one after the other leave, and no buffer is
written while another agent uses it (`jobs_handle_tiles`).
-/
import SnitchCluster.Kernels.BlasVariants

namespace SnitchCluster.Kernels.Blas

open Theory Theory.Loops Theory.Supersteps

/-! ## Regions of the TCDM -/

/-- Regions of bytes, by start and size, one after the other. -/
def Ordered (regions : List (Nat × Nat)) : Prop :=
  regions.Pairwise fun r r' => r.1 + r.2 ≤ r'.1

/-- `sizeof(double)` -/
def sizeof_double : Nat := 8

/-! ## syrk -/

inductive SyrkArray
  | a
  | c
  deriving DecidableEq

inductive SyrkBuffer
  | local_a
  | local_at
  | local_c
  deriving DecidableEq

/-- `syrk_args_t`, as far as the job depends on it. -/
structure SyrkArgs (F : Type) where
  m : Nat
  n : Nat
  beta : F
  m_tiles : Nat
  /-- `funcptr == syrk_opt` -/
  opt : Bool

namespace SyrkArgs

variable {F : Type} (args : SyrkArgs F)

def m_frac : Nat := args.m / args.m_tiles

def a_tile_size : Nat := args.n * args.m_frac

def c_tile_size : Nat := args.m_frac * args.m_frac

def n_tiles : Nat := args.m_tiles * args.m_tiles

/-- Where the job arguments and the buffers are; `sizeof(syrk_args_t)` is 40. -/
def regions (addr : Nat) : List (Nat × Nat) :=
  let a_tile_bytes := args.a_tile_size * sizeof_double
  let c_tile_bytes := args.c_tile_size * sizeof_double
  let local_a0_addr := addr + 40
  let local_at0_addr := local_a0_addr + a_tile_bytes
  let local_c0_addr := local_at0_addr + a_tile_bytes
  let local_a1_addr := local_c0_addr + c_tile_bytes
  let local_at1_addr := local_a1_addr + a_tile_bytes
  let local_c1_addr := local_at1_addr + a_tile_bytes
  [(addr, 40), (local_a0_addr, a_tile_bytes), (local_at0_addr, a_tile_bytes),
    (local_c0_addr, c_tile_bytes), (local_a1_addr, a_tile_bytes), (local_at1_addr, a_tile_bytes),
    (local_c1_addr, c_tile_bytes)]

/-- The words of a set that a kernel may read. -/
def operand (b : Nat) (x : Word SyrkArray SyrkBuffer) : Prop :=
  ∃ e < args.a_tile_size, x = .loc .local_a b e ∨ x = .loc .local_at b e

/-- The words of a set that a kernel may write. -/
def result (b : Nat) (x : Word SyrkArray SyrkBuffer) : Prop :=
  ∃ e < args.c_tile_size, x = .loc .local_c b e

/-- The words of a tile of `C`. -/
def tileC (t : Nat) (x : Word SyrkArray SyrkBuffer) : Prop :=
  ∃ r < args.m_frac, ∃ e < args.m_frac, x = .ext .c
    (tileElement (t / args.m_tiles) (t % args.m_tiles) args.m_frac args.m_frac args.m r e)

end SyrkArgs

/-- A kernel for `syrk_job`. -/
abbrev SyrkFp {F : Type} (args : SyrkArgs F) (cores : Nat) :=
  TileKernel SyrkArray SyrkBuffer F cores args.operand args.result

def syrk_job {F : Type} [Zero F] [DecidableEq F] (args : SyrkArgs F) (cores : Nat)
    (fp : SyrkFp args cores) : Pipeline (Step SyrkArray SyrkBuffer F) where
  count := args.n_tiles
  workers := cores
  load i_dma_in :=
    let buff_idx := i_dma_in % 2
    let i_row := i_dma_in / args.m_tiles
    let i_col := i_dma_in % args.m_tiles
    snrt_dma_load_1d_tile (.loc .local_a buff_idx) (.ext .a) i_row args.a_tile_size ++
      snrt_dma_load_1d_tile (.loc .local_at buff_idx) (.ext .a) i_col args.a_tile_size ++
      if args.opt ∨ args.beta ≠ 0 then
        snrt_dma_load_2d_tile (.loc .local_c buff_idx) (.ext .c) i_row i_col args.m_frac args.m_frac
          args.m
      else []
  compute i_compute := fp.code (i_compute % 2)
  store i_dma_out :=
    let buff_idx := i_dma_out % 2
    let i_row := i_dma_out / args.m_tiles
    let i_col := i_dma_out % args.m_tiles
    snrt_dma_store_2d_tile (.ext .c) (.loc .local_c buff_idx) i_row i_col args.m_frac args.m_frac
      args.m
  storeFirst := true

section Syrk

variable {F : Type} [Zero F] [DecidableEq F] {args : SyrkArgs F} {cores : Nat}
  {fp : SyrkFp args cores}

theorem syrk_transfers (some_tile : 0 < args.m_tiles) (whole : args.m_tiles ∣ args.m) :
    Transfers (syrk_job args cores fp) args.operand args.result
      (fun t x => (∃ e, x = .ext .a e) ∨ args.tileC t x) args.tileC
      (fun t x => args.operand (t % 2) x ∨ args.result (t % 2) x) := by
  have full : args.m = args.m_tiles * args.m_frac := (Nat.mul_div_cancel' whole).symm
  have square : ∀ {r e : Nat}, r < args.m_frac → e < args.m_frac →
      r * args.m_frac + e < args.c_tile_size := grid_lt
  constructor
  · intro t _
    refine Semantics.within_append.mpr ⟨Semantics.within_append.mpr ⟨?_, ?_⟩, ?_⟩
    · exact within_load_1d (fun e _ => .inl ⟨_, rfl⟩) fun e inside => .inl ⟨e, inside, .inl rfl⟩
    · exact within_load_1d (fun e _ => .inl ⟨_, rfl⟩) fun e inside => .inl ⟨e, inside, .inr rfl⟩
    · split
      · exact within_load_2d (fun r row e column => .inr ⟨r, row, e, column, rfl⟩)
          fun r row e column => .inr ⟨_, square row column, rfl⟩
      · exact Semantics.within_nil
  · intro t _
    exact within_store_2d (fun r row e column => ⟨_, square row column, rfl⟩)
      fun r row e column => ⟨r, row, e, column, rfl⟩
  · rintro t x (⟨e, rfl⟩ | ⟨r, _, e, _, rfl⟩) <;> exact trivial
  · rintro t x ⟨r, _, e, _, rfl⟩
    exact trivial
  · rintro t x (⟨e, _, rfl | rfl⟩ | ⟨e, _, rfl⟩) <;> exact trivial
  · rintro b x ⟨e, _, rfl | rfl⟩ <;> exact trivial
  · rintro b x ⟨e, _, rfl⟩
    exact trivial
  · rintro b b' x ⟨e, _, rfl | rfl⟩ ⟨e', _, same⟩ <;> cases same
  · rintro t x (⟨e, _, rfl | rfl⟩ | ⟨e, _, rfl⟩) <;>
      simp [SyrkArgs.operand, SyrkArgs.result] <;> omega
  · rintro t x ⟨e, _, rfl⟩
    simp [SyrkArgs.result]
    omega
  · rintro t t' earlier last x ⟨r, row, e, column, rfl⟩ (⟨e', same⟩ | ⟨r', row', e', column', same⟩)
    · cases same
    · injection same with _ same
      rw [full] at same
      obtain ⟨rows, columns⟩ := tileElement_inj (Nat.mod_lt t some_tile) (Nat.mod_lt t' some_tile)
        row row' column column' same
      exact earlier.ne (tileIndex_inj rows columns)
  · intro first
    cases first

end Syrk

/-! ## doitgen -/

inductive DoitgenArray
  | A
  | x
  deriving DecidableEq

inductive DoitgenBuffer
  | local_a
  | local_aout
  | local_x
  deriving DecidableEq

/-- `doitgen_args_t`, without the kernel. -/
structure DoitgenArgs where
  r : Nat
  q : Nat
  s : Nat
  r_tiles : Nat
  q_tiles : Nat

namespace DoitgenArgs

variable (args : DoitgenArgs)

def r_frac : Nat := args.r / args.r_tiles

def q_frac : Nat := args.q / args.q_tiles

def a_tile_size : Nat := args.r_frac * args.q_frac * args.s

def x_size : Nat := args.s * args.s

def sb_iterations : Nat := args.r_tiles * args.q_tiles

/-- `sizeof(doitgen_args_t)` is 32. -/
def regions (addr : Nat) : List (Nat × Nat) :=
  let a_tile_bytes := args.a_tile_size * sizeof_double
  let x_bytes := args.x_size * sizeof_double
  let local_x0_addr := addr + 32
  let local_a0_addr := local_x0_addr + x_bytes
  let local_aout0_addr := local_a0_addr + a_tile_bytes
  let local_a1_addr := local_aout0_addr + a_tile_bytes
  let local_aout1_addr := local_a1_addr + a_tile_bytes
  [(addr, 32), (local_x0_addr, x_bytes), (local_a0_addr, a_tile_bytes),
    (local_aout0_addr, a_tile_bytes), (local_a1_addr, a_tile_bytes),
    (local_aout1_addr, a_tile_bytes)]

/-- `local_x` is in both sets. -/
def operand (b : Nat) (x : Word DoitgenArray DoitgenBuffer) : Prop :=
  (∃ e < args.a_tile_size, x = .loc .local_a b e) ∨ ∃ e < args.x_size, x = .loc .local_x 0 e

def result (b : Nat) (x : Word DoitgenArray DoitgenBuffer) : Prop :=
  ∃ e < args.a_tile_size, x = .loc .local_aout b e

/-- The words of a tile of `A`. -/
def tileA (t : Nat) (x : Word DoitgenArray DoitgenBuffer) : Prop :=
  ∃ r < args.r_frac, ∃ e < args.q_frac * args.s, x = .ext .A
    (tileElement (t / args.q_tiles) (t % args.q_tiles) args.r_frac (args.q_frac * args.s)
      (args.q * args.s) r e)

end DoitgenArgs

abbrev DoitgenFp (F : Type) (args : DoitgenArgs) (cores : Nat) :=
  TileKernel DoitgenArray DoitgenBuffer F cores args.operand args.result

/-- With `DOUBLE_BUFFER`. -/
def doitgen_job {F : Type} (args : DoitgenArgs) (cores : Nat) (fp : DoitgenFp F args cores) :
    Pipeline (Step DoitgenArray DoitgenBuffer F) where
  count := args.sb_iterations
  workers := cores
  load i_dma_in :=
    let buff_idx := i_dma_in % 2
    let i_r := i_dma_in / args.q_tiles
    let i_q := i_dma_in % args.q_tiles
    snrt_dma_load_2d_tile (.loc .local_a buff_idx) (.ext .A) i_r i_q args.r_frac
        (args.q_frac * args.s) (args.q * args.s) ++
      if i_dma_in = 0 then snrt_dma_start_1d (.loc .local_x 0) (.ext .x) args.x_size else []
  compute i_compute := fp.code (i_compute % 2)
  store i_dma_out :=
    let buff_idx := i_dma_out % 2
    let i_r := i_dma_out / args.q_tiles
    let i_q := i_dma_out % args.q_tiles
    snrt_dma_store_2d_tile (.ext .A) (.loc .local_aout buff_idx) i_r i_q args.r_frac
      (args.q_frac * args.s) (args.q * args.s)
  storeFirst := false

section Doitgen

variable {F : Type} {args : DoitgenArgs} {cores : Nat} {fp : DoitgenFp F args cores}

theorem doitgen_transfers (some_tile : 0 < args.q_tiles) (whole : args.q_tiles ∣ args.q) :
    Transfers (doitgen_job args cores fp) args.operand args.result
      (fun t x => args.tileA t x ∨ ∃ e, x = .ext .x e) args.tileA
      (fun t x => (∃ e < args.a_tile_size, x = .loc .local_a (t % 2) e) ∨
        t = 0 ∧ ∃ e < args.x_size, x = .loc .local_x 0 e) := by
  have full : args.q * args.s = args.q_tiles * (args.q_frac * args.s) := by
    rw [← Nat.mul_assoc, DoitgenArgs.q_frac, Nat.mul_div_cancel' whole]
  have rows : ∀ {r e : Nat}, r < args.r_frac → e < args.q_frac * args.s →
      r * (args.q_frac * args.s) + e < args.a_tile_size := by
    intro r e row column
    rw [DoitgenArgs.a_tile_size, Nat.mul_assoc]
    exact grid_lt row column
  constructor
  · intro t _
    refine Semantics.within_append.mpr ⟨?_, ?_⟩
    · exact within_load_2d (fun r row e column => .inl ⟨r, row, e, column, rfl⟩)
        fun r row e column => .inl ⟨_, rows row column, rfl⟩
    · split
      · next first =>
          exact within_start_1d (fun e _ => .inr ⟨e, rfl⟩)
            fun e inside => .inr ⟨first, e, inside, rfl⟩
      · exact Semantics.within_nil
  · intro t _
    exact within_store_2d (fun r row e column => ⟨_, rows row column, rfl⟩)
      fun r row e column => ⟨r, row, e, column, rfl⟩
  · rintro t x (⟨r, _, e, _, rfl⟩ | ⟨e, rfl⟩) <;> exact trivial
  · rintro t x ⟨r, _, e, _, rfl⟩
    exact trivial
  · rintro t x (⟨e, _, rfl⟩ | ⟨_, e, _, rfl⟩) <;> exact trivial
  · rintro b x (⟨e, _, rfl⟩ | ⟨e, _, rfl⟩) <;> exact trivial
  · rintro b x ⟨e, _, rfl⟩
    exact trivial
  · rintro b b' x (⟨e, _, rfl⟩ | ⟨e, _, rfl⟩) ⟨e', _, same⟩ <;> cases same
  · rintro t x (⟨e, _, rfl⟩ | ⟨first, _⟩)
    · simp [DoitgenArgs.operand, DoitgenArgs.result]
      omega
    · cases first
  · rintro t x ⟨e, _, rfl⟩
    simp [DoitgenArgs.result]
    omega
  · rintro t t' earlier last x ⟨r, row, e, column, rfl⟩ (⟨r', row', e', column', same⟩ | ⟨e', same⟩)
    · injection same with _ same
      rw [full] at same
      obtain ⟨rows, columns⟩ := tileElement_inj (Nat.mod_lt t some_tile) (Nat.mod_lt t' some_tile)
        row row' column column' same
      exact earlier.ne (tileIndex_inj rows columns)
    · cases same
  · rintro - t x (⟨e, _, rfl⟩ | ⟨first, _⟩)
    · simp [DoitgenArgs.result]
    · cases first

end Doitgen

/-! ## axpy -/

inductive AxpyArray
  | x
  | y
  | z
  deriving DecidableEq

inductive AxpyBuffer
  | local_x
  | local_y
  | local_z
  deriving DecidableEq

/-- `axpy_args_t`, as far as the job depends on it. -/
structure AxpyArgs where
  n : Nat
  n_tiles : Nat

/-- `ALIGN_NEXT_FROM_BASE` -/
def align_next_from_base (addr base size : Nat) : Nat :=
  (addr - base + size - 1) / size * size + base

/-- `BANK_ALIGNMENT` -/
def bank_alignment : Nat := 8

/-- `ALIGN_UP_TCDM`, by `SNRT_TCDM_START_ADDR`. -/
def align_up_tcdm (start addr : Nat) : Nat := align_next_from_base addr start (24 * bank_alignment)

namespace AxpyArgs

variable (args : AxpyArgs)

def frac : Nat := args.n / args.n_tiles

/-- `sizeof(axpy_args_t)` is 40. -/
def regions (start addr : Nat) : List (Nat × Nat) :=
  let size := args.frac * sizeof_double
  let local_x0_addr := align_up_tcdm start (addr + 40)
  let local_y0_addr := align_up_tcdm start (local_x0_addr + size) + 8 * bank_alignment
  let local_z0_addr := align_up_tcdm start (local_y0_addr + size) + 16 * bank_alignment
  let local_x1_addr := align_up_tcdm start (local_z0_addr + size)
  let local_y1_addr := align_up_tcdm start (local_x1_addr + size) + 8 * bank_alignment
  let local_z1_addr := align_up_tcdm start (local_y1_addr + size) + 16 * bank_alignment
  [(addr, 40), (local_x0_addr, size), (local_y0_addr, size), (local_z0_addr, size),
    (local_x1_addr, size), (local_y1_addr, size), (local_z1_addr, size)]

def operand (b : Nat) (x : Word AxpyArray AxpyBuffer) : Prop :=
  ∃ e < args.frac, x = .loc .local_x b e ∨ x = .loc .local_y b e

def result (b : Nat) (x : Word AxpyArray AxpyBuffer) : Prop :=
  ∃ e < args.frac, x = .loc .local_z b e

end AxpyArgs

abbrev AxpyFp (F : Type) (args : AxpyArgs) (cores : Nat) :=
  TileKernel AxpyArray AxpyBuffer F cores args.operand args.result

/-- With `DOUBLE_BUFFER`. -/
def axpy_job {F : Type} (args : AxpyArgs) (cores : Nat) (fp : AxpyFp F args cores) :
    Pipeline (Step AxpyArray AxpyBuffer F) where
  count := args.n_tiles
  workers := cores
  load i_dma_in :=
    let buff_idx := i_dma_in % 2
    let offset := i_dma_in * args.frac
    snrt_dma_start_1d (.loc .local_x buff_idx) (fun e => .ext .x (offset + e)) args.frac ++
      snrt_dma_start_1d (.loc .local_y buff_idx) (fun e => .ext .y (offset + e)) args.frac
  compute i_compute := fp.code (i_compute % 2)
  store i_dma_out :=
    let buff_idx := i_dma_out % 2
    let offset := i_dma_out * args.frac
    snrt_dma_start_1d (fun e => .ext .z (offset + e)) (.loc .local_z buff_idx) args.frac
  storeFirst := false

section Axpy

variable {F : Type} {args : AxpyArgs} {cores : Nat} {fp : AxpyFp F args cores}

theorem axpy_transfers : Transfers (axpy_job args cores fp) args.operand args.result
    (fun _ x => ∃ e, x = .ext .x e ∨ x = .ext .y e) (fun _ x => ∃ e, x = .ext .z e)
    (fun t => args.operand (t % 2)) := by
  constructor
  · intro t _
    refine Semantics.within_append.mpr ⟨?_, ?_⟩
    · exact within_start_1d (fun e _ => ⟨_, .inl rfl⟩) fun e inside => ⟨e, inside, .inl rfl⟩
    · exact within_start_1d (fun e _ => ⟨_, .inr rfl⟩) fun e inside => ⟨e, inside, .inr rfl⟩
  · intro t _
    exact within_start_1d (fun e inside => ⟨e, inside, rfl⟩) fun e _ => ⟨_, rfl⟩
  · rintro t x ⟨e, rfl | rfl⟩ <;> exact trivial
  · rintro t x ⟨e, rfl⟩
    exact trivial
  · rintro t x ⟨e, _, rfl | rfl⟩ <;> exact trivial
  · rintro b x ⟨e, _, rfl | rfl⟩ <;> exact trivial
  · rintro b x ⟨e, _, rfl⟩
    exact trivial
  · rintro b b' x ⟨e, _, rfl | rfl⟩ ⟨e', _, same⟩ <;> cases same
  · rintro t x ⟨e, _, rfl | rfl⟩ <;> simp [AxpyArgs.operand, AxpyArgs.result] <;> omega
  · rintro t x ⟨e, _, rfl⟩
    simp [AxpyArgs.result]
    omega
  · rintro t t' _ _ x ⟨e, rfl⟩ ⟨e', same | same⟩ <;> cases same
  · rintro - t x ⟨e, _, rfl | rfl⟩ <;> simp [AxpyArgs.result]

theorem le_align_next {addr base size : Nat} (above : base ≤ addr) (some : 0 < size) :
    addr ≤ align_next_from_base addr base size := by
  have rounded := Nat.div_add_mod (addr - base + size - 1) size
  have rest := Nat.mod_lt (addr - base + size - 1) some
  rw [Nat.mul_comm] at rounded
  unfold align_next_from_base
  omega

theorem le_align_up_tcdm {start addr : Nat} (above : start ≤ addr) :
    addr ≤ align_up_tcdm start addr :=
  le_align_next above (by decide)

theorem AxpyArgs.ordered (args : AxpyArgs) {start addr : Nat} (above : start ≤ addr) :
    Ordered (args.regions start addr) := by
  have grows : ∀ a, addr ≤ a → a ≤ align_up_tcdm start a :=
    fun a after => le_align_up_tcdm (above.trans after)
  simp only [Ordered, regions, bank_alignment]
  generalize args.frac * sizeof_double = size
  have x0_above := grows (addr + 40) (by omega)
  generalize align_up_tcdm start (addr + 40) = x0 at *
  have y0_above := grows (x0 + size) (by omega)
  generalize align_up_tcdm start (x0 + size) = y0 at *
  have z0_above := grows (y0 + 8 * 8 + size) (by omega)
  generalize align_up_tcdm start (y0 + 8 * 8 + size) = z0 at *
  have x1_above := grows (z0 + 16 * 8 + size) (by omega)
  generalize align_up_tcdm start (z0 + 16 * 8 + size) = x1 at *
  have y1_above := grows (x1 + size) (by omega)
  generalize align_up_tcdm start (x1 + size) = y1 at *
  have z1_above := grows (y1 + 8 * 8 + size) (by omega)
  generalize align_up_tcdm start (y1 + 8 * 8 + size) = z1 at *
  simp only [List.pairwise_cons, List.mem_cons, List.not_mem_nil, or_false, forall_eq_or_imp,
    forall_eq, List.Pairwise.nil, and_true, false_implies, implies_true]
  omega

end Axpy

theorem SyrkArgs.ordered {F : Type} (args : SyrkArgs F) (addr : Nat) :
    Ordered (args.regions addr) := by
  simp [Ordered, SyrkArgs.regions]
  omega

theorem DoitgenArgs.ordered (args : DoitgenArgs) (addr : Nat) : Ordered (args.regions addr) := by
  simp [Ordered, DoitgenArgs.regions]
  omega

/-! ## Variants as tile kernels -/

section Variants

variable {E L F : Type} {cores : Nat} {operand result : Nat → Word E L → Prop}

/-- A kernel that deals out the results. -/
def TileKernel.ofParted (code : Nat → Nat → List (Step E L F)) (part : Nat → Nat → Word E L → Prop)
    (parted : ∀ b, Parted cores (code b) (operand b) (part b))
    (part_result : ∀ b, ∀ core < cores, ∀ x, part b core x → result b x) :
    TileKernel E L F cores operand result where
  code := code
  part := part
  part_result := part_result
  part_apart b := (parted b).apart
  within b := (parted b).within

variable [CommSemiring F]

def syrk_naive_kernel [DecidableEq F] (some_core : 0 < cores) (args : SyrkArgs F) (alpha : F) :
    SyrkFp args cores :=
  .ofParted
    (fun b core => syrk_naive cores core args.m_frac args.n alpha (.loc .local_a b)
      (.loc .local_at b) args.beta (.loc .local_c b))
    (fun b core x => ∃ i ∈ dealtRows cores core args.m_frac, ∃ j < args.m_frac,
      x = .loc .local_c b (i * args.m_frac + j))
    (by
      intro b
      have operands : args.operand b = fun x =>
          (∃ e < args.m_frac * args.n, x = .loc .local_a b e) ∨
            ∃ e < args.m_frac * args.n, x = .loc .local_at b e := by
        funext x
        simp only [SyrkArgs.operand, SyrkArgs.a_tile_size, Nat.mul_comm args.n, and_or_left,
          exists_or]
      rw [operands]
      simp only [syrk_naive_eq]
      exact (blocks_of_finishes (fun core => syrk_finish 1 core alpha args.beta)
        fun _ _ => syrk_finishes).parted (dealtRows_dealt some_core) Nat.one_pos (one_dvd _)
          (by decide) (by decide))
    (by
      rintro b core worker x ⟨i, mine, j, column, rfl⟩
      exact ⟨_, grid_lt ((mem_dealtRows worker).mp mine).1 column, rfl⟩)

def doitgen_naive_kernel (some_core : 0 < cores) (args : DoitgenArgs) : DoitgenFp F args cores :=
  .ofParted
    (fun b core => doitgen_naive cores core args.r_frac args.q_frac args.s (.loc .local_a b)
      (.loc .local_x 0) (.loc .local_aout b))
    (fun b core x => ∃ i ∈ planeRows args.q_frac (dealtRows cores core args.r_frac),
      ∃ j < args.s, x = .loc .local_aout b (i * args.s + j))
    (by
      intro b
      simp only [doitgen_naive_eq]
      exact (blocks_in_place (by decide) (by decide)).parted
        (planeRows_dealt (dealtRows_dealt some_core)) Nat.one_pos (one_dvd _) (by decide)
          (by decide))
    (by
      rintro b core worker x ⟨i, mine, j, column, rfl⟩
      have dealt := planeRows_dealt (q := args.q_frac) (dealtRows_dealt (M := args.r_frac) some_core)
      exact ⟨_, grid_lt (dealt.inside core worker i mine) column, rfl⟩)

def axpy_naive_kernel (some_core : 0 < cores) (args : AxpyArgs) (a : F) : AxpyFp F args cores :=
  .ofParted
    (fun b core => axpy_naive cores core args.frac a (.loc .local_x b) (.loc .local_y b)
      (.loc .local_z b))
    (fun b core x => ∃ i ∈ dealtRows cores core args.frac, x = .loc .local_z b i)
    (fun _ => axpy_parted some_core (by decide) (by decide))
    (by
      rintro b core worker x ⟨i, mine, rfl⟩
      exact ⟨i, ((mem_dealtRows worker).mp mine).1, rfl⟩)

end Variants

/-- **Double-buffered jobs handle their tiles one after the other**, whatever the kernel: every
run ends as the tiles loaded, computed and stored in turn, in no run an agent touches a word that
another is writing, and the buffers do not overlap. -/
theorem jobs_handle_tiles {F : Type} [Zero F] [DecidableEq F] (cores : Nat) :
    (∀ (args : SyrkArgs F) (fp : SyrkFp args cores) (addr : Nat)
        (m : Word SyrkArray SyrkBuffer → F),
      0 < args.m_tiles → args.m_tiles ∣ args.m →
        (syrk_job args cores fp).Handles Statement.semantics m ∧ Ordered (args.regions addr)) ∧
    (∀ (args : DoitgenArgs) (fp : DoitgenFp F args cores) (addr : Nat)
        (m : Word DoitgenArray DoitgenBuffer → F),
      0 < args.r_tiles → 0 < args.q_tiles → args.r_tiles ∣ args.r → args.q_tiles ∣ args.q →
        (doitgen_job args cores fp).Handles Statement.semantics m ∧ Ordered (args.regions addr)) ∧
    ∀ (args : AxpyArgs) (fp : AxpyFp F args cores) (start addr : Nat)
        (m : Word AxpyArray AxpyBuffer → F),
      0 < args.n_tiles → args.n_tiles ∣ args.n → start ≤ addr →
        (axpy_job args cores fp).Handles Statement.semantics m ∧
          Ordered (args.regions start addr) := by
  refine ⟨fun args fp addr m some_tile whole => ?_, fun args fp addr m _ some_tile _ whole => ?_,
    fun args fp start addr m _ _ above => ?_⟩
  · exact ⟨((syrk_transfers some_tile whole).apart rfl rfl).handles m, args.ordered addr⟩
  · exact ⟨((doitgen_transfers some_tile whole).apart rfl rfl).handles m, args.ordered addr⟩
  · exact ⟨(axpy_transfers.apart rfl rfl).handles m, args.ordered above⟩

theorem jobs_handle_tiles_eight :
    (syrk_job ⟨16, 4, (1 : ℤ), 2, false⟩ 8 (syrk_naive_kernel (by decide) _ 3)).Handles
        Statement.semantics (fun _ => 1) ∧
      (doitgen_job ⟨16, 4, 4, 2, 2⟩ 8 (doitgen_naive_kernel (by decide) _)).Handles
        Statement.semantics (fun _ => (1 : ℤ)) ∧
      (axpy_job ⟨24, 3⟩ 8 (axpy_naive_kernel (by decide) _ 2)).Handles
        Statement.semantics (fun _ => (1 : ℤ)) :=
  ⟨((jobs_handle_tiles 8).1 _ _ 0 _ (by decide) (by decide)).1,
    ((jobs_handle_tiles 8).2.1 _ _ 0 _ (by decide) (by decide) (by decide) (by decide)).1,
    ((jobs_handle_tiles 8).2.2 _ _ 0 0 _ (by decide) (by decide) (by decide)).1⟩

end SnitchCluster.Kernels.Blas
