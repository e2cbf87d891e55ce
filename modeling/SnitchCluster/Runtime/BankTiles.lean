/-
# Runtime.BankTiles -- a tile in a subset of the banks, and back

`snrt_dma_load_2d_tile_in_banks` gives a tile new dimensions: as many elements in a row as
the selected banks hold in a line, and as many rows as that takes.  With the new
dimensions it calls `snrt_dma_load_2d_tile`, which uses them on the array, too: the offset of
the tile, the length of a row and the number of rows are those of the reshaped tile, the
stride is that of the array.  The way back makes the same mistake.  What the round trip
copies is the tile exactly if a line holds just a row of the tile, or more than one and the
tile is one run of elements that starts at the offset of the reshaped one and ends where that
does, or where the array does (`lossless_iff`).  The buffer stays in its banks in any case.
-/
import SnitchCluster.Theory.Loops
import SnitchCluster.Theory.Moves
import Mathlib.Tactic.Ring

namespace SnitchCluster.Runtime.BankTiles

open Theory
open Theory.Moves (Move Rows)

/-- Addresses of the external memory and of the TCDM. -/
inductive Addr
  | ext (a : Nat)
  | tcdm (a : Nat)
  deriving DecidableEq

/-- The constants of the configuration. -/
structure Config where
  SNRT_TCDM_START_ADDR : Nat
  SNRT_TCDM_BANK_WIDTH : Nat
  SNRT_TCDM_BANK_PER_HYPERBANK_NUM : Nat

namespace Config

variable (C : Config)

def SNRT_TCDM_HYPERBANK_WIDTH : Nat :=
  C.SNRT_TCDM_BANK_PER_HYPERBANK_NUM * C.SNRT_TCDM_BANK_WIDTH

/-- The bank of its hyperbank in which a byte lies. -/
def bank (a : Nat) : Nat :=
  (a - C.SNRT_TCDM_START_ADDR) / C.SNRT_TCDM_BANK_WIDTH % C.SNRT_TCDM_BANK_PER_HYPERBANK_NUM

end Config

/-- `size_t` has 32 bits. -/
def sizeT (n : Nat) : Nat := n % 2 ^ 32

/-! ## The transfers -/

section Source

variable {A : Type}

/-- `snrt_dma_load_2d_tile`, over a pointer to the tile and one to the array. -/
def load2dTile (dst src : Nat → A) (tile_x1_idx tile_x0_idx tile_x1_size tile_x0_size full_x0_size
    prec tile_ld : Nat) : Rows A :=
  let src_offset :=
    sizeT ((tile_x0_idx * tile_x0_size + tile_x1_idx * tile_x1_size * full_x0_size) * prec)
  { dst := dst
    src := fun o => src (src_offset + o)
    size := sizeT (tile_x0_size * prec)
    dstStride := tile_ld
    srcStride := sizeT (full_x0_size * prec)
    rows := tile_x1_size }

/-- `snrt_dma_store_2d_tile` -/
def store2dTile (dst src : Nat → A) (tile_x1_idx tile_x0_idx tile_x1_size tile_x0_size full_x0_size
    prec tile_ld : Nat) : Rows A :=
  let dst_offset :=
    sizeT ((tile_x0_idx * tile_x0_size + tile_x1_idx * tile_x1_size * full_x0_size) * prec)
  { dst := fun o => dst (dst_offset + o)
    src := src
    size := sizeT (tile_x0_size * prec)
    dstStride := sizeT (full_x0_size * prec)
    srcStride := tile_ld
    rows := tile_x1_size }

variable (C : Config)

/-- `tile_x0_size_in_banks` -/
def tileX0SizeInBanks (prec num_banks : Nat) : Nat :=
  sizeT (num_banks * C.SNRT_TCDM_BANK_WIDTH) / prec

/-- `tile_x1_size_in_banks`, a quotient rounded up; where no element fits a line the rows are
empty, however many. -/
def tileX1SizeInBanks (tile_x1_size tile_x0_size prec num_banks : Nat) : Nat :=
  (sizeT (tile_x1_size * tile_x0_size) + tileX0SizeInBanks C prec num_banks - 1) /
    tileX0SizeInBanks C prec num_banks

/-- `snrt_dma_load_2d_tile_in_banks` -/
def load2dTileInBanks (dst src : Nat → A) (tile_x1_idx tile_x0_idx tile_x1_size tile_x0_size
    full_x0_size prec num_banks : Nat) : Rows A :=
  load2dTile dst src tile_x1_idx tile_x0_idx
    (tileX1SizeInBanks C tile_x1_size tile_x0_size prec num_banks)
    (tileX0SizeInBanks C prec num_banks) full_x0_size prec C.SNRT_TCDM_HYPERBANK_WIDTH

/-- `snrt_dma_store_2d_tile_from_banks` -/
def store2dTileFromBanks (dst src : Nat → A) (tile_x1_idx tile_x0_idx tile_x1_size tile_x0_size
    full_x0_size prec num_banks : Nat) : Rows A :=
  store2dTile dst src tile_x1_idx tile_x0_idx
    (tileX1SizeInBanks C tile_x1_size tile_x0_size prec num_banks)
    (tileX0SizeInBanks C prec num_banks) full_x0_size prec C.SNRT_TCDM_HYPERBANK_WIDTH

end Source

/-! ## Blocks -/

/-- The bytes of `n` rows of `w` bytes, `f` apart, from byte `p` on. -/
def Block (n w f p y : Nat) : Prop := ∃ r < n, ∃ b < w, y = p + (r * f + b)

section Blocks

variable {n w n' w' f p t y N : Nat}

/-- Rows that touch are one run. -/
theorem block_run (rows : 0 < n) (touch : f ≤ w ∨ n = 1) :
    Block n w f p y ↔ p ≤ y ∧ y < p + ((n - 1) * f + w) := by
  constructor
  · rintro ⟨r, row, b, byte, rfl⟩
    have below : r * f ≤ (n - 1) * f := Nat.mul_le_mul_right f (by omega)
    omega
  · rintro ⟨above, below⟩
    induction n, rows using Nat.le_induction with
    | base =>
      have none : (Nat.succ 0 - 1) * f = 0 := Nat.zero_mul f
      exact ⟨0, Nat.one_pos, y - p, by omega, by omega⟩
    | succ n rows ih =>
      have touch : f ≤ w := by omega
      have split : n * f = (n - 1) * f + f := by
        rw [← Nat.succ_mul]
        congr 1
        omega
      rw [Nat.add_sub_cancel] at below
      by_cases earlier : y < p + ((n - 1) * f + w)
      · obtain ⟨r, row, rest⟩ := ih (.inl touch) earlier
        exact ⟨r, Nat.lt_succ_of_lt row, rest⟩
      · exact ⟨n, Nat.lt_succ_self n, y - p - n * f, by omega, by omega⟩

/-- The byte behind a row that does not touch the next. -/
theorem block_gap (gap : w < f) {r : Nat} : ¬Block n w f p (p + (r * f + w)) := by
  rintro ⟨r', row, b, byte, same⟩
  have sum : r * f + w = r' * f + b := by omega
  have column : w = b := by
    have left : (r * f + w) % f = w := Loops.grid_mod gap
    have right : (r' * f + b) % f = b := Loops.grid_mod (Nat.lt_trans byte gap)
    rw [← left, sum, right]
  omega

/-- **Two blocks with the same stride that agree within the first `N` bytes**, where the second
lies: they are the same, or the second is one run, starts where the first does and ends where
that does or at the end of the `N` bytes. -/
theorem block_agree (rows : 0 < n) (bytes : 0 < w) (within : w ≤ f)
    (inside : t + ((n - 1) * f + w) ≤ N) (rows' : 0 < w' → 0 < n') (single : n = 1 → w < w' → n' = 1)
    (agree : ∀ y < N, Block n' w' f p y ↔ Block n w f t y) :
    w' = w ∨ w < w' ∧ (w = f ∨ n = 1) ∧ p = t ∧ ((n' - 1) * f + w' = (n - 1) * f + w ∨
      t + ((n - 1) * f + w) = N ∧ (n - 1) * f + w ≤ (n' - 1) * f + w') := by
  have first : Block n' w' f p t :=
    (agree t (by omega)).mpr ⟨0, rows, 0, bytes, by omega⟩
  rcases Nat.lt_trichotomy w' w with narrow | same | wide
  · -- the byte behind a narrow row is in the second block, as the byte before is
    obtain ⟨r, -, b, byte, start⟩ := first
    have gap : w' < f := by omega
    have behind : p + (r * f + w') < t + w := by omega
    have member := (agree (p + (r * f + w')) (by omega)).mpr
      ⟨0, rows, p + (r * f + w') - t, by omega, by omega⟩
    exact absurd member (block_gap gap)
  · exact .inl same
  · have bytes' : 0 < w' := by omega
    have low : p ≤ t := by
      obtain ⟨r, -, b, -, start⟩ := first
      omega
    have high : t ≤ p := by
      obtain ⟨r, -, b, -, start⟩ := (agree p (by omega)).mp ⟨0, rows' bytes', 0, bytes', by omega⟩
      omega
    obtain rfl : p = t := Nat.le_antisymm low high
    have run : w = f ∨ n = 1 := by
      by_contra neither
      obtain ⟨narrower, several⟩ := not_or.mp neither
      have more : f ≤ (n - 1) * f := Nat.le_mul_of_pos_left f (by omega)
      have covered := (agree (p + (0 * f + w)) (by omega)).mp
        ⟨0, rows' bytes', w, wide, rfl⟩
      exact block_gap (by omega) covered
    refine .inr ⟨wide, run, rfl, ?_⟩
    have touch' : f ≤ w' ∨ n' = 1 := by
      rcases run with full | one
      · exact .inl (by omega)
      · exact .inr (single one wide)
    have touch : f ≤ w ∨ n = 1 := run.imp_left fun full => full.ge
    have runs : ∀ y < N, y < p + ((n' - 1) * f + w') ↔ y < p + ((n - 1) * f + w) := by
      intro y below
      have both := agree y below
      rw [block_run (rows' bytes') touch', block_run rows touch] at both
      omega
    have last := runs (p + ((n - 1) * f + w) - 1) (by omega)
    by_cases ends : p + ((n - 1) * f + w) = N
    · exact .inr ⟨ends, by omega⟩
    · have past := runs (p + ((n - 1) * f + w)) (by omega)
      exact .inl (by omega)

end Blocks

/-! ## A round trip -/

/-- The arguments of both calls, and the arrays and the buffer they are about. -/
structure Call where
  tile_x1_idx : Nat
  tile_x0_idx : Nat
  tile_x1_size : Nat
  tile_x0_size : Nat
  full_x1_size : Nat
  full_x0_size : Nat
  prec : Nat
  num_banks : Nat
  src : Nat
  dst : Nat
  buf : Nat

namespace Call

variable (C : Config) (c : Call)

def loadMoves : List (Move Addr) :=
  (load2dTileInBanks C (fun o => .tcdm (c.buf + o)) (fun o => .ext (c.src + o)) c.tile_x1_idx
    c.tile_x0_idx c.tile_x1_size c.tile_x0_size c.full_x0_size c.prec c.num_banks).moves

def storeMoves : List (Move Addr) :=
  (store2dTileFromBanks C (fun o => .ext (c.dst + o)) (fun o => .tcdm (c.buf + o)) c.tile_x1_idx
    c.tile_x0_idx c.tile_x1_size c.tile_x0_size c.full_x0_size c.prec c.num_banks).moves

/-- The load, and when it is through the store. -/
def roundTrip (m : Addr → BitVec 8) : Addr → BitVec 8 :=
  Moves.run (c.storeMoves C) (Moves.run (c.loadMoves C) m)

/-- The bytes of an array. -/
def bytes : Nat := c.full_x1_size * (c.full_x0_size * c.prec)

/-- The bytes of the tile, counted from the start of its array. -/
def InTile (y : Nat) : Prop :=
  ∃ r < c.tile_x1_size, ∃ b < c.tile_x0_size * c.prec,
    y = (c.tile_x0_idx * c.tile_x0_size + c.tile_x1_idx * c.tile_x1_size * c.full_x0_size) * c.prec +
      (r * (c.full_x0_size * c.prec) + b)

open Classical in
/-- The tile is copied and nothing else of the array, and the buffer lies in banks
`first` to `first + num_banks - 1`. -/
structure Lossless (first : Nat) : Prop where
  copied : ∀ m : Addr → BitVec 8, ∀ y < c.bytes, c.roundTrip C m (.ext (c.dst + y)) =
    if c.InTile y then m (.ext (c.src + y)) else m (.ext (c.dst + y))
  loads : ∀ t ∈ c.loadMoves C, ∃ a, t.dst = .tcdm a ∧ C.SNRT_TCDM_START_ADDR ≤ a ∧
    first ≤ C.bank a ∧ C.bank a < first + c.num_banks
  stores : ∀ t ∈ c.storeMoves C, ∃ a, t.src = .tcdm a ∧ C.SNRT_TCDM_START_ADDR ≤ a ∧
    first ≤ C.bank a ∧ C.bank a < first + c.num_banks

/-- The tile is inside an array that has a place in memory, the arrays are two, and the buffer
starts in the first of the selected banks. -/
structure Fits (first : Nat) : Prop where
  element : 0 < c.prec
  rows : (c.tile_x1_idx + 1) * c.tile_x1_size ≤ c.full_x1_size
  columns : (c.tile_x0_idx + 1) * c.tile_x0_size ≤ c.full_x0_size
  space : c.bytes < 2 ^ 32
  arrays : c.src + c.bytes ≤ c.dst ∨ c.dst + c.bytes ≤ c.src
  bankWidth : 0 < C.SNRT_TCDM_BANK_WIDTH
  lineWidth : C.SNRT_TCDM_HYPERBANK_WIDTH < 2 ^ 32
  banks : first + c.num_banks ≤ C.SNRT_TCDM_BANK_PER_HYPERBANK_NUM
  buffer : ∃ line, c.buf = C.SNRT_TCDM_START_ADDR + (line * C.SNRT_TCDM_HYPERBANK_WIDTH +
    first * C.SNRT_TCDM_BANK_WIDTH)

/-- As many elements as the selected banks hold in a line. -/
def perLine : Nat := c.num_banks * C.SNRT_TCDM_BANK_WIDTH / c.prec

/-- As many lines as the elements of the tile take. -/
def lines : Nat := (c.tile_x1_size * c.tile_x0_size + c.perLine C - 1) / c.perLine C

/-- There is no element, or a line holds just a row of the tile, or it holds more and the tile
is one run of elements, at the offset of the reshaped tile, that ends where the reshaped tile
ends or, where that reaches further, with the array. -/
def Agrees : Prop :=
  c.tile_x1_size = 0 ∨ c.tile_x0_size = 0 ∨ c.perLine C = c.tile_x0_size ∨
    c.tile_x0_size < c.perLine C ∧
    (c.tile_x0_size = c.full_x0_size ∨ c.tile_x1_size = 1) ∧
    (c.tile_x0_idx * c.perLine C + c.tile_x1_idx * c.lines C * c.full_x0_size) * c.prec % 2 ^ 32 =
      (c.tile_x0_idx * c.tile_x0_size + c.tile_x1_idx * c.tile_x1_size * c.full_x0_size) * c.prec ∧
    ((c.lines C - 1) * c.full_x0_size + c.perLine C =
        (c.tile_x1_size - 1) * c.full_x0_size + c.tile_x0_size ∨
      (c.tile_x1_idx + 1) * c.tile_x1_size = c.full_x1_size ∧
        (c.tile_x0_idx + 1) * c.tile_x0_size = c.full_x0_size ∧
        (c.tile_x1_size - 1) * c.full_x0_size + c.tile_x0_size ≤
          (c.lines C - 1) * c.full_x0_size + c.perLine C)

/-- Where the tile starts in the arrays. -/
def start : Nat :=
  (c.tile_x0_idx * c.tile_x0_size + c.tile_x1_idx * c.tile_x1_size * c.full_x0_size) * c.prec

theorem inTile_iff {c : Call} {y : Nat} : c.InTile y ↔
    Block c.tile_x1_size (c.tile_x0_size * c.prec) (c.full_x0_size * c.prec) c.start y := Iff.rfl

/-- Where the reshaped tile starts. -/
def offset : Nat :=
  (c.tile_x0_idx * c.perLine C + c.tile_x1_idx * c.lines C * c.full_x0_size) * c.prec % 2 ^ 32

/-! ### The moves -/

section Moves

variable {C c} {first : Nat} (fits : c.Fits C first)

theorem perLine_width : c.perLine C * c.prec ≤ c.num_banks * C.SNRT_TCDM_BANK_WIDTH :=
  Nat.div_mul_le_self _ _

/-- As many lines as there are rows if a line holds one. -/
theorem lines_eq (column : 0 < c.tile_x0_size) (same : c.perLine C = c.tile_x0_size) :
    c.lines C = c.tile_x1_size := by
  rw [lines, same, Nat.add_sub_assoc column, Nat.add_comm, Nat.add_mul_div_right _ _ column,
    Nat.div_eq_of_lt (by omega), Nat.zero_add]

theorem lines_pos (row : 0 < c.tile_x1_size) (column : 0 < c.tile_x0_size)
    (held : 0 < c.perLine C) : 0 < c.lines C := by
  have some := Nat.mul_pos row column
  exact Nat.div_pos (by omega) held

theorem lines_one (column : 0 < c.tile_x0_size) (single : c.tile_x1_size = 1)
    (wide : c.tile_x0_size < c.perLine C) : c.lines C = 1 := by
  rw [lines, single, Nat.one_mul]
  exact Nat.div_eq_of_lt_le (by omega) (by omega)

/-- The ends of two runs in elements are those in bytes. -/
theorem run_bytes (n w : Nat) : (n - 1) * (c.full_x0_size * c.prec) + w * c.prec =
    ((n - 1) * c.full_x0_size + w) * c.prec := by
  ring

include fits

theorem Fits.banks_line : first * C.SNRT_TCDM_BANK_WIDTH + c.num_banks * C.SNRT_TCDM_BANK_WIDTH ≤
    C.SNRT_TCDM_HYPERBANK_WIDTH := by
  rw [← Nat.add_mul]
  exact Nat.mul_le_mul_right _ fits.banks

theorem Fits.perLine_line : c.perLine C * c.prec ≤ C.SNRT_TCDM_HYPERBANK_WIDTH := by
  have narrow := c.perLine_width (C := C)
  have line := fits.banks_line
  omega

theorem Fits.tileX0SizeInBanks_eq : tileX0SizeInBanks C c.prec c.num_banks = c.perLine C := by
  have line := fits.banks_line
  have small := fits.lineWidth
  rw [tileX0SizeInBanks, sizeT, Nat.mod_eq_of_lt (by omega), perLine]

/-- A byte of the selected banks. -/
theorem Fits.bank_eq (r : Nat) {b : Nat} (byte : b < c.num_banks * C.SNRT_TCDM_BANK_WIDTH) :
    C.SNRT_TCDM_START_ADDR ≤ c.buf + (r * C.SNRT_TCDM_HYPERBANK_WIDTH + b) ∧
      first ≤ C.bank (c.buf + (r * C.SNRT_TCDM_HYPERBANK_WIDTH + b)) ∧
      C.bank (c.buf + (r * C.SNRT_TCDM_HYPERBANK_WIDTH + b)) < first + c.num_banks := by
  obtain ⟨line, buf⟩ := fits.buffer
  have width := fits.bankWidth
  have column : first * C.SNRT_TCDM_BANK_WIDTH + b < (first + c.num_banks) *
      C.SNRT_TCDM_BANK_WIDTH := by
    rw [Nat.add_mul]
    omega
  have place : c.buf + (r * C.SNRT_TCDM_HYPERBANK_WIDTH + b) - C.SNRT_TCDM_START_ADDR =
      first * C.SNRT_TCDM_BANK_WIDTH + b +
        (line + r) * C.SNRT_TCDM_BANK_PER_HYPERBANK_NUM * C.SNRT_TCDM_BANK_WIDTH := by
    rw [Nat.mul_assoc (line + r), Nat.add_mul]
    have same : C.SNRT_TCDM_HYPERBANK_WIDTH =
      C.SNRT_TCDM_BANK_PER_HYPERBANK_NUM * C.SNRT_TCDM_BANK_WIDTH := rfl
    rw [← same]
    omega
  have bank : C.bank (c.buf + (r * C.SNRT_TCDM_HYPERBANK_WIDTH + b)) =
      (first * C.SNRT_TCDM_BANK_WIDTH + b) / C.SNRT_TCDM_BANK_WIDTH := by
    have below := (Nat.div_lt_iff_lt_mul width).mpr column
    rw [Config.bank, place, Nat.add_mul_div_right _ _ width, Nat.add_mul_mod_self_right,
      Nat.mod_eq_of_lt (Nat.lt_of_lt_of_le below fits.banks)]
  rw [bank]
  refine ⟨by omega, ?_, (Nat.div_lt_iff_lt_mul width).mpr column⟩
  exact (Nat.le_div_iff_mul_le width).mpr (Nat.le_add_right _ _)

section Some

theorem Fits.size_eq : sizeT (c.perLine C * c.prec) = c.perLine C * c.prec := by
  have narrow := fits.perLine_line
  have small := fits.lineWidth
  exact Nat.mod_eq_of_lt (by omega)

variable (row : 0 < c.tile_x1_size)

include row

/-- The sizes are those of numbers of 32 bits. -/
theorem Fits.small : c.full_x0_size * c.prec < 2 ^ 32 ∧
    c.tile_x1_size * c.tile_x0_size < 2 ^ 32 := by
  have rows : c.tile_x1_size ≤ c.full_x1_size := by
    refine Nat.le_trans (Nat.le_mul_of_pos_left _ (Nat.succ_pos c.tile_x1_idx)) fits.rows
  have columns : c.tile_x0_size ≤ c.full_x0_size := by
    refine Nat.le_trans (Nat.le_mul_of_pos_left _ (Nat.succ_pos c.tile_x0_idx)) fits.columns
  have line : c.full_x0_size * c.prec ≤ c.bytes :=
    Nat.le_mul_of_pos_left _ (Nat.lt_of_lt_of_le row rows)
  have tile : c.tile_x1_size * c.tile_x0_size ≤ c.bytes :=
    Nat.mul_le_mul rows (Nat.le_trans columns (Nat.le_mul_of_pos_right _ fits.element))
  have space := fits.space
  omega

theorem Fits.tileX1SizeInBanks_eq :
    tileX1SizeInBanks C c.tile_x1_size c.tile_x0_size c.prec c.num_banks = c.lines C := by
  rw [tileX1SizeInBanks, sizeT, fits.tileX0SizeInBanks_eq,
    Nat.mod_eq_of_lt (fits.small row).2, lines]

/-- **What the load moves.** -/
theorem Fits.mem_loadMoves {t : Move Addr} : t ∈ c.loadMoves C ↔
    ∃ r < c.lines C, ∃ b < c.perLine C * c.prec,
      t = ⟨.ext (c.src + (c.offset C + (r * (c.full_x0_size * c.prec) + b))),
        .tcdm (c.buf + (r * C.SNRT_TCDM_HYPERBANK_WIDTH + b))⟩ := by
  have stride : sizeT (c.full_x0_size * c.prec) = c.full_x0_size * c.prec :=
    Nat.mod_eq_of_lt (fits.small row).1
  rw [loadMoves, Moves.Rows.mem_moves]
  simp only [load2dTileInBanks, load2dTile, fits.tileX0SizeInBanks_eq,
    fits.tileX1SizeInBanks_eq row, fits.size_eq, stride]
  rfl

/-- **What the store moves.** -/
theorem Fits.mem_storeMoves {t : Move Addr} : t ∈ c.storeMoves C ↔
    ∃ r < c.lines C, ∃ b < c.perLine C * c.prec,
      t = ⟨.tcdm (c.buf + (r * C.SNRT_TCDM_HYPERBANK_WIDTH + b)),
        .ext (c.dst + (c.offset C + (r * (c.full_x0_size * c.prec) + b)))⟩ := by
  have stride : sizeT (c.full_x0_size * c.prec) = c.full_x0_size * c.prec :=
    Nat.mod_eq_of_lt (fits.small row).1
  rw [storeMoves, Moves.Rows.mem_moves]
  simp only [store2dTileFromBanks, store2dTile, fits.tileX0SizeInBanks_eq,
    fits.tileX1SizeInBanks_eq row, fits.size_eq, stride]
  rfl

/-- A word of the buffer comes from the array. -/
theorem Fits.origin_load {r b : Nat} (line : r < c.lines C) (byte : b < c.perLine C * c.prec) :
    Moves.origin (c.loadMoves C) (.tcdm (c.buf + (r * C.SNRT_TCDM_HYPERBANK_WIDTH + b))) =
      .ext (c.src + (c.offset C + (r * (c.full_x0_size * c.prec) + b))) := by
  have narrow := fits.perLine_line
  have fresh : ∀ t ∈ c.loadMoves C, ∀ u ∈ c.loadMoves C, t.src ≠ u.dst := by
    intro t loaded u loaded'
    obtain ⟨_, _, _, _, rfl⟩ := (fits.mem_loadMoves row).mp loaded
    obtain ⟨_, _, _, _, rfl⟩ := (fits.mem_loadMoves row).mp loaded'
    exact Addr.noConfusion
  have moved : ⟨.ext (c.src + (c.offset C + (r * (c.full_x0_size * c.prec) + b))),
      .tcdm (c.buf + (r * C.SNRT_TCDM_HYPERBANK_WIDTH + b))⟩ ∈ c.loadMoves C :=
    (fits.mem_loadMoves row).mpr ⟨r, line, b, byte, rfl⟩
  rcases Moves.origin_fresh (x := .tcdm (c.buf + (r * C.SNRT_TCDM_HYPERBANK_WIDTH + b))) fresh with
    ⟨t, loaded, here, found⟩ | ⟨unwritten, -⟩
  · obtain ⟨r', _, b', byte', rfl⟩ := (fits.mem_loadMoves row).mp loaded
    have same : r' * C.SNRT_TCDM_HYPERBANK_WIDTH + b' = r * C.SNRT_TCDM_HYPERBANK_WIDTH + b := by
      have both := Addr.tcdm.inj here
      omega
    obtain ⟨rfl, rfl⟩ := Loops.grid_inj (by omega) (by omega) same
    exact found
  · exact absurd rfl (unwritten _ moved)

open Classical in
/-- **Where a byte of the second array comes from.** -/
theorem Fits.origin_roundTrip (y : Nat) :
    Moves.origin (c.loadMoves C ++ c.storeMoves C) (.ext (c.dst + y)) =
      if Block (c.lines C) (c.perLine C * c.prec) (c.full_x0_size * c.prec) (c.offset C) y
      then .ext (c.src + y) else .ext (c.dst + y) := by
  have fresh : ∀ t ∈ c.storeMoves C, ∀ u ∈ c.storeMoves C, t.src ≠ u.dst := by
    intro t stored u stored'
    obtain ⟨_, _, _, _, rfl⟩ := (fits.mem_storeMoves row).mp stored
    obtain ⟨_, _, _, _, rfl⟩ := (fits.mem_storeMoves row).mp stored'
    exact Addr.noConfusion
  rw [Moves.origin_append]
  rcases Moves.origin_fresh (x := .ext (c.dst + y)) fresh with
    ⟨t, stored, here, found⟩ | ⟨unwritten, stays⟩
  · obtain ⟨r, line, b, byte, rfl⟩ := (fits.mem_storeMoves row).mp stored
    have place : y = c.offset C + (r * (c.full_x0_size * c.prec) + b) := by
      have both := Addr.ext.inj here
      omega
    rw [found, fits.origin_load row line byte, if_pos ⟨r, line, b, byte, place⟩, place]
  · rw [stays, if_neg, Moves.origin_unwritten]
    · intro t loaded
      obtain ⟨_, _, _, _, rfl⟩ := (fits.mem_loadMoves row).mp loaded
      exact Addr.noConfusion
    · rintro ⟨r, line, b, byte, rfl⟩
      exact unwritten _ ((fits.mem_storeMoves row).mpr ⟨r, line, b, byte, rfl⟩) rfl

end Some

/-- **The round trip copies the rows of the reshaped tile**, so it is right if they are the
tile. -/
theorem Fits.lossless_iff_block (row : 0 < c.tile_x1_size) :
    c.Lossless C first ↔ ∀ y < c.bytes, Block (c.lines C) (c.perLine C * c.prec)
      (c.full_x0_size * c.prec) (c.offset C) y ↔ c.InTile y := by
  classical
  have moved : ∀ (m : Addr → BitVec 8) y, c.roundTrip C m (.ext (c.dst + y)) =
      if Block (c.lines C) (c.perLine C * c.prec) (c.full_x0_size * c.prec) (c.offset C) y
      then m (.ext (c.src + y)) else m (.ext (c.dst + y)) := by
    intro m y
    rw [roundTrip, ← Moves.run_append, Moves.run_eq, Function.comp_apply, fits.origin_roundTrip row]
    split <;> rfl
  constructor
  · intro lossless y inside
    -- memories that differ at the two places tell them apart
    have apart : Addr.ext (c.dst + y) ≠ .ext (c.src + y) := by
      have arrays := fits.arrays
      intro same
      have both := Addr.ext.inj same
      omega
    have copied := lossless.copied (fun a => if a = .ext (c.src + y) then 1 else 0) y inside
    rw [moved, if_pos rfl, if_neg apart] at copied
    by_cases covered : Block (c.lines C) (c.perLine C * c.prec) (c.full_x0_size * c.prec)
        (c.offset C) y <;> by_cases tile : c.InTile y <;> simp_all
  · intro same
    refine ⟨fun m y inside => by rw [moved, if_congr (same y inside) rfl rfl], ?_, ?_⟩
    · intro t loaded
      obtain ⟨r, _, b, byte, rfl⟩ := (fits.mem_loadMoves row).mp loaded
      exact ⟨_, rfl, fits.bank_eq r (Nat.lt_of_lt_of_le byte perLine_width)⟩
    · intro t stored
      obtain ⟨r, _, b, byte, rfl⟩ := (fits.mem_storeMoves row).mp stored
      exact ⟨_, rfl, fits.bank_eq r (Nat.lt_of_lt_of_le byte perLine_width)⟩

/-! ### The shape of the tile -/

/-- The elements of an array come before its end. -/
theorem Fits.elements : c.tile_x0_idx * c.tile_x0_size + c.tile_x0_size ≤ c.full_x0_size ∧
    c.tile_x1_idx * c.tile_x1_size + c.tile_x1_size ≤ c.full_x1_size := by
  have rows := fits.rows
  have columns := fits.columns
  rw [Nat.succ_mul] at rows columns
  exact ⟨columns, rows⟩

/-- The tile ends in the array, and where it ends with it its last row and column do. -/
theorem Fits.end_le (row : 0 < c.tile_x1_size) :
    c.start + ((c.tile_x1_size - 1) * (c.full_x0_size * c.prec) + c.tile_x0_size * c.prec) ≤
        c.bytes ∧
      (0 < c.tile_x0_size →
        (c.start + ((c.tile_x1_size - 1) * (c.full_x0_size * c.prec) + c.tile_x0_size * c.prec) =
          c.bytes ↔ (c.tile_x1_idx + 1) * c.tile_x1_size = c.full_x1_size ∧
            (c.tile_x0_idx + 1) * c.tile_x0_size = c.full_x0_size)) := by
  obtain ⟨columns, rows⟩ := fits.elements
  have last : c.start + ((c.tile_x1_size - 1) * (c.full_x0_size * c.prec) +
      c.tile_x0_size * c.prec) = ((c.tile_x1_idx * c.tile_x1_size + (c.tile_x1_size - 1)) *
        c.full_x0_size + (c.tile_x0_idx * c.tile_x0_size + c.tile_x0_size)) * c.prec := by
    rw [start]
    ring
  have whole : c.bytes = c.full_x1_size * c.full_x0_size * c.prec := (Nat.mul_assoc ..).symm
  obtain ⟨more, sum⟩ := Nat.exists_eq_add_of_le rows
  have split : c.full_x1_size * c.full_x0_size =
      (c.tile_x1_idx * c.tile_x1_size + (c.tile_x1_size - 1)) * c.full_x0_size + c.full_x0_size +
        more * c.full_x0_size := by
    rw [← Nat.succ_mul, ← Nat.add_mul, sum]
    congr 1
    omega
  rw [last, whole]
  refine ⟨Nat.mul_le_mul_right _ (by omega), fun column => ?_⟩
  rw [Nat.mul_left_inj fits.element.ne', split, Nat.succ_mul, Nat.succ_mul]
  constructor
  · intro same
    have none : more * c.full_x0_size = 0 := by omega
    rcases Nat.mul_eq_zero.mp none with full | empty <;> omega
  · rintro ⟨lastRow, lastColumn⟩
    have none : more = 0 := by omega
    rw [none]
    omega

theorem Fits.agrees_of_block (row : 0 < c.tile_x1_size) (column : 0 < c.tile_x0_size)
    (same : ∀ y < c.bytes, Block (c.lines C) (c.perLine C * c.prec) (c.full_x0_size * c.prec)
      (c.offset C) y ↔ c.InTile y) : c.Agrees C := by
  have element := fits.element
  obtain ⟨inside, ends⟩ := fits.end_le row
  have columns : c.tile_x0_size * c.prec ≤ c.full_x0_size * c.prec :=
    Nat.mul_le_mul_right _ (by have := fits.elements.1; omega)
  rcases block_agree row (Nat.mul_pos column element) columns inside
    (fun some => lines_pos row column (Nat.pos_of_mul_pos_right some))
    (fun single wide => lines_one column single (Nat.lt_of_mul_lt_mul_right wide)) same with
    equal | ⟨wide, run, start, finish⟩
  · exact .inr (.inr (.inl (Nat.eq_of_mul_eq_mul_right element equal)))
  · refine .inr (.inr (.inr ⟨Nat.lt_of_mul_lt_mul_right wide,
      run.imp_left (Nat.eq_of_mul_eq_mul_right element), start, ?_⟩))
    rw [ends column, run_bytes, run_bytes] at finish
    rcases finish with equal | ⟨⟨lastRow, lastColumn⟩, past⟩
    · exact .inl (Nat.eq_of_mul_eq_mul_right element equal)
    · exact .inr ⟨lastRow, lastColumn, Nat.le_of_mul_le_mul_right past element⟩

theorem Fits.block_of_agrees (row : 0 < c.tile_x1_size) (column : 0 < c.tile_x0_size)
    (agrees : c.Agrees C) : ∀ y < c.bytes, Block (c.lines C) (c.perLine C * c.prec)
      (c.full_x0_size * c.prec) (c.offset C) y ↔ c.InTile y := by
  intro y below
  obtain ⟨inside, ends⟩ := fits.end_le row
  rw [inTile_iff]
  rcases agrees with none | none | equal | ⟨wide, run, start, finish⟩
  · omega
  · omega
  · have small : c.start < 2 ^ 32 := by
      have space := fits.space
      have some := Nat.mul_pos column fits.element
      omega
    have start : c.offset C = c.start := by
      rw [offset, equal, lines_eq column equal]
      exact Nat.mod_eq_of_lt small
    rw [equal, lines_eq column equal, start]
  · have start : c.offset C = c.start := start
    have touch : c.full_x0_size * c.prec ≤ c.tile_x0_size * c.prec ∨ c.tile_x1_size = 1 :=
      run.imp_left fun full => by rw [full]
    have touch' : c.full_x0_size * c.prec ≤ c.perLine C * c.prec ∨ c.lines C = 1 := by
      rcases run with full | single
      · exact .inl (Nat.mul_le_mul_right _ (by omega))
      · exact .inr (lines_one column single wide)
    rw [block_run (lines_pos row column (by omega)) touch', block_run row touch, start,
      run_bytes, run_bytes]
    rcases finish with equal | ⟨lastRow, lastColumn, past⟩
    · rw [equal]
    · have finished := (ends column).mpr ⟨lastRow, lastColumn⟩
      rw [run_bytes] at finished
      have past := Nat.mul_le_mul_right c.prec past
      omega

omit fits in
/-- Without elements there are no transfers. -/
theorem lossless_of_empty (empty : c.tile_x1_size = 0 ∨ c.tile_x0_size = 0) :
    c.Lossless C first := by
  have none : c.tile_x1_size * c.tile_x0_size = 0 := Nat.mul_eq_zero.mpr empty
  have rows : tileX1SizeInBanks C c.tile_x1_size c.tile_x0_size c.prec c.num_banks = 0 := by
    have short : ∀ n, (0 + n - 1) / n = 0 := by
      intro n
      rcases Nat.eq_zero_or_pos n with rfl | some
      · rfl
      · exact Nat.div_eq_of_lt (by omega)
    rw [tileX1SizeInBanks, none]
    exact short _
  have loads : c.loadMoves C = [] := by
    simp [loadMoves, load2dTileInBanks, load2dTile, rows, Moves.Rows.moves]
  have stores : c.storeMoves C = [] := by
    simp [storeMoves, store2dTileFromBanks, store2dTile, rows, Moves.Rows.moves]
  refine ⟨fun m y _ => ?_, by simp [loads], by simp [stores]⟩
  have outside : ¬c.InTile y := by
    rintro ⟨r, row, b, byte, -⟩
    rcases empty with flat | thin
    · omega
    · rw [thin, Nat.zero_mul] at byte
      exact Nat.not_lt_zero b byte
  rw [roundTrip, loads, stores, if_neg outside]
  rfl

end Moves

/-- **The round trip is lossless exactly if the reshaped tile agrees with the tile.** -/
theorem lossless_iff (C : Config) (c : Call) (first : Nat) (fits : c.Fits C first) :
    c.Lossless C first ↔ c.Agrees C := by
  by_cases empty : c.tile_x1_size = 0 ∨ c.tile_x0_size = 0
  · exact ⟨fun _ => empty.elim .inl fun thin => .inr (.inl thin),
      fun _ => lossless_of_empty empty⟩
  · obtain ⟨row, column⟩ := not_or.mp empty
    have row := Nat.pos_of_ne_zero row
    have column := Nat.pos_of_ne_zero column
    rw [fits.lossless_iff_block row]
    exact ⟨fits.agrees_of_block row column, fits.block_of_agrees row column⟩

/-! ### A tile as wide as two banks -/

/-- A hyperbank of 32 banks of 8 bytes. -/
def snitchConfig : Config where
  SNRT_TCDM_START_ADDR := 0x10000000
  SNRT_TCDM_BANK_WIDTH := 8
  SNRT_TCDM_BANK_PER_HYPERBANK_NUM := 32

/-- Tile `(1, 1)` of two by two doubles in an array of four by four, in `num_banks` banks. -/
def quarter (num_banks : Nat) : Call where
  tile_x1_idx := 1
  tile_x0_idx := 1
  tile_x1_size := 2
  tile_x0_size := 2
  full_x1_size := 4
  full_x0_size := 4
  prec := 8
  num_banks := num_banks
  src := 0x80000000
  dst := 0x80001000
  buf := 0x10000100

theorem quarter_fits {num_banks : Nat} (few : num_banks ≤ 32) :
    (quarter num_banks).Fits snitchConfig 0 where
  element := Nat.succ_pos 7
  rows := Nat.le_refl 4
  columns := Nat.le_refl 4
  space := show 128 < 2 ^ 32 by decide
  arrays := .inl (show 0x80000000 + 128 ≤ 0x80001000 by decide)
  bankWidth := Nat.succ_pos 7
  lineWidth := show 256 < 2 ^ 32 by decide
  banks := (Nat.zero_add num_banks).symm ▸ few
  buffer := ⟨1, rfl⟩

theorem lossless_two_banks : (quarter 2).Lossless snitchConfig 0 :=
  (lossless_iff snitchConfig (quarter 2) 0 (quarter_fits (by decide))).mpr
    (.inr (.inr (.inl rfl)))

/-- **In four banks the tile is taken for one row of four**: the second row is lost, and so is
what stood before the first. -/
theorem quarter_lost : (quarter 4).Fits snitchConfig 0 ∧
    ¬(quarter 4).Lossless snitchConfig 0 := by
  have fits : (quarter 4).Fits snitchConfig 0 := quarter_fits (by decide)
  refine ⟨fits, fun lossless => ?_⟩
  obtain ⟨r, -, b, -, place⟩ := ((fits.lossless_iff_block (by decide)).mp lossless 64
    (by decide)).mp ⟨0, by decide, 0, by decide, rfl⟩
  have start : 64 = (1 * 2 + 1 * 2 * 4) * 8 + (r * (4 * 8) + b) := place
  omega

end Call

end SnitchCluster.Runtime.BankTiles
