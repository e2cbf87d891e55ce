/-
# Runtime.ThreadLocal -- thread-local storage where each core looks for it

The startup code of a hart puts its thread-local storage below the top of its stack and its
address, rounded down, in `tp`.  `snrt_init_tls` runs on the last core of a cluster and
fills the storage of all: it derives the other addresses from its own `tp` by a constant
offset, one stack and the eight bytes between stacks.  The rounding respects the offset as
long as it is a multiple of eight, so what it writes is what each core finds at its `tp`
(`tls_initialised`).
-/
import SnitchCluster.Runtime.MemoryMap
import SnitchCluster.Theory.Loops
import SnitchCluster.Theory.Moves

namespace SnitchCluster.Runtime.ThreadLocal

open Theory
open Theory.Loops (loop)
open MemoryMap

/-- The bytes by address. -/
abbrev Memory := Nat → BitVec 8

/-! ## Transfers -/

/-- The byte moves of a transfer of rows. -/
def rows2d (dst src size dst_stride src_stride repeat' : Nat) : Moves.Rows Nat where
  dst := (dst + ·)
  src := (src + ·)
  size := size
  dstStride := dst_stride
  srcStride := src_stride
  rows := repeat'

/-- `snrt_dma_start_1d` -/
def snrtDmaStart1d (dst src size : Nat) : Memory → Memory :=
  Moves.run (rows2d dst src size 0 0 1).moves

/-- `snrt_dma_start_2d` -/
def snrtDmaStart2d (dst src size dst_stride src_stride repeat' : Nat) : Memory → Memory :=
  Moves.run (rows2d dst src size dst_stride src_stride repeat').moves

/-- `snrt_dma_memset` -/
def snrtDmaMemset (ptr : Nat) (value : BitVec 8) (len : Nat) (m : Memory) : Memory :=
  let n_1d_transfers := len / 64
  let use_dma := decide (len % 64 = 0) && decide (len > 64)
  let nbytes := if decide (len < 64) || !use_dma then len else 64
  let set := loop nbytes (fun b m => Function.update m (ptr + b) value) m
  if use_dma then snrtDmaStart2d ptr ptr 64 64 0 n_1d_transfers set else set

/-- `snrt_init_tls` on the core that moves data, by its `tp`. -/
def snrtInitTls (cfg : Config) (tp : BitVec 32) (m : Memory) : Memory :=
  let size := cfg.tdata.size
  let own := snrtDmaStart1d tp.toNat cfg.tdata.start.toNat size.toNat m
  let tls_offset := 1#32 <<< cfg.log2StackSize + 8
  let all := loop (cfg.clusterCoreNum.toNat - 1) (fun i =>
    snrtDmaStart1d (tp + BitVec.ofNat 32 (i + 1) * tls_offset).toNat tp.toNat size.toNat) own
  loop cfg.clusterCoreNum.toNat (fun i =>
    snrtDmaMemset (tp + size + BitVec.ofNat 32 i * tls_offset).toNat 0 cfg.tbss.size.toNat) all

section Transfers

variable {dst src size ptr len a : Nat} {value : BitVec 8} {m : Memory}

theorem mem_rows1d {t : Moves.Move Nat} :
    t ∈ (rows2d dst src size 0 0 1).moves ↔ ∃ b < size, t = ⟨src + b, dst + b⟩ := by
  rw [Moves.Rows.mem_moves]
  constructor
  · rintro ⟨r, -, b, inside, rfl⟩
    exact ⟨b, inside, by simp [rows2d]⟩
  · rintro ⟨b, inside, rfl⟩
    exact ⟨0, Nat.one_pos, b, inside, by simp [rows2d]⟩

theorem start1d_apply (apart : dst + size ≤ src ∨ src + size ≤ dst) :
    snrtDmaStart1d dst src size m a =
      if dst ≤ a ∧ a < dst + size then m (src + (a - dst)) else m a := by
  have fresh : ∀ t ∈ (rows2d dst src size 0 0 1).moves, ∀ u ∈ (rows2d dst src size 0 0 1).moves,
      t.src ≠ u.dst := by
    intro t first u second
    obtain ⟨b, inside, rfl⟩ := mem_rows1d.mp first
    obtain ⟨b', inside', rfl⟩ := mem_rows1d.mp second
    simp only
    omega
  rw [snrtDmaStart1d, Moves.run_eq, Function.comp_apply]
  rcases Moves.origin_fresh (x := a) fresh with ⟨t, moved, here, found⟩ | ⟨unwritten, stays⟩
  · obtain ⟨b, inside, rfl⟩ := mem_rows1d.mp moved
    have here : dst + b = a := here
    rw [found, if_pos (by omega), ← here, Nat.add_sub_cancel_left]
  · rw [stays, if_neg]
    rintro ⟨low, high⟩
    exact unwritten ⟨src + (a - dst), dst + (a - dst)⟩ (mem_rows1d.mpr ⟨a - dst, by omega, rfl⟩)
      (Nat.add_sub_of_le low)

theorem memset_loop (n : Nat) : loop n (fun b m => Function.update m (ptr + b) value) m a =
    if ptr ≤ a ∧ a < ptr + n then value else m a := by
  induction n with
  | zero => rw [if_neg (by omega)]; rfl
  | succ n ih =>
    rw [Loops.loop_succ, Function.update_apply, ih]
    by_cases here : a = ptr + n
    · rw [if_pos here, if_pos (by omega)]
    · rw [if_neg here]
      exact if_congr (by omega) rfl rfl

theorem mem_rows64 {t : Moves.Move Nat} {n : Nat} :
    t ∈ (rows2d ptr ptr 64 64 0 n).moves ↔ ∃ b < n * 64, t = ⟨ptr + b % 64, ptr + b⟩ := by
  rw [Moves.Rows.mem_moves]
  constructor
  · rintro ⟨r, row, b, byte, rfl⟩
    have row : r < n := row
    have byte : b < 64 := byte
    have column : (r * 64 + b) % 64 = b := Loops.grid_mod byte
    refine ⟨r * 64 + b, by omega, ?_⟩
    rw [column]
    simp [rows2d]
  · rintro ⟨b, inside, rfl⟩
    have row : b / 64 < n := by omega
    refine ⟨b / 64, row, b % 64, Nat.mod_lt b (by decide), ?_⟩
    simp [rows2d, Nat.div_add_mod']

/-- **A region is set**, whichever way. -/
theorem memset_apply : snrtDmaMemset ptr value len m a =
    if ptr ≤ a ∧ a < ptr + len then value else m a := by
  rw [snrtDmaMemset]
  by_cases dma : len % 64 = 0 ∧ len > 64
  · obtain ⟨whole, long⟩ := dma
    have short : ¬len < 64 := by omega
    simp only [whole, long, short, decide_true, decide_false, Bool.and_self, Bool.not_true,
      Bool.or_self, Bool.false_eq_true, if_true, if_false]
    have held : ∀ t ∈ (rows2d ptr ptr 64 64 0 (len / 64)).moves,
        loop 64 (fun b m => Function.update m (ptr + b) value) m t.src = value := by
      intro t moved
      obtain ⟨b, inside, rfl⟩ := mem_rows64.mp moved
      have byte := Nat.mod_lt b (by decide : 0 < 64)
      rw [memset_loop, if_pos ⟨Nat.le_add_right _ _, Nat.add_lt_add_left byte ptr⟩]
    rw [snrtDmaStart2d]
    rcases Moves.run_constant (x := a) held with ⟨⟨t, moved, here⟩, found⟩ | ⟨unwritten, stays⟩
    · obtain ⟨b, inside, rfl⟩ := mem_rows64.mp moved
      have here : ptr + b = a := here
      rw [found, if_pos (by omega)]
    · have outside : ¬(ptr ≤ a ∧ a < ptr + len) := by
        rintro ⟨low, high⟩
        exact unwritten ⟨ptr + (a - ptr) % 64, ptr + (a - ptr)⟩
          (mem_rows64.mpr ⟨a - ptr, by omega, rfl⟩) (Nat.add_sub_of_le low)
      rw [stays, memset_loop, if_neg outside, if_neg (by omega)]
  · have stores : (decide (len % 64 = 0) && decide (len > 64)) = false := by
      simpa using dma
    simp only [stores, Bool.not_false, Bool.or_true, Bool.false_eq_true, if_true, if_false]
    exact memset_loop len

end Transfers

/-! ## Regions at a constant distance -/

/-- Regions of `data` and then `zeros` bytes each, `stride` apart from `base` on; `image` is
where the data is. -/
structure Layout where
  image : Nat
  base : Nat
  stride : Nat
  data : Nat
  zeros : Nat
  count : Nat

namespace Layout

def start (l : Layout) (i : Nat) : Nat := l.base + i * l.stride

structure Apart (l : Layout) : Prop where
  stride : l.data + l.zeros ≤ l.stride
  image : ∀ i < l.count, l.start i + l.data + l.zeros ≤ l.image ∨ l.image + l.data ≤ l.start i

/-- The data is in the first `copied` regions and the zeros are in the first `zeroed`. -/
structure Filled (l : Layout) (before : Memory) (copied zeroed : Nat) (after : Memory) : Prop where
  data : ∀ i < copied, ∀ b < l.data, after (l.start i + b) = before (l.image + b)
  zeros : ∀ i < zeroed, ∀ b < l.zeros, after (l.start i + l.data + b) = 0
  others : ∀ a, (∀ i < l.count, ¬(l.start i ≤ a ∧ a < l.start i + l.data + l.zeros)) →
    after a = before a

variable {l : Layout} {before m : Memory} {i j k : Nat}

theorem Apart.ordered (apart : l.Apart) (less : i < j) :
    l.start i + l.data + l.zeros ≤ l.start j := by
  have next : (i + 1) * l.stride ≤ j * l.stride := Nat.mul_le_mul_right _ less
  have stride := apart.stride
  rw [Nat.succ_mul] at next
  unfold start
  omega

/-- The first region, from the image. -/
theorem Apart.filled_own (apart : l.Apart) (some : 0 < l.count) :
    l.Filled before 1 0 (snrtDmaStart1d l.base l.image l.data before) := by
  have first : l.start 0 = l.base := by simp [start]
  have off := apart.image 0 some
  rw [first] at off
  have copy : ∀ a, snrtDmaStart1d l.base l.image l.data before a =
      if l.base ≤ a ∧ a < l.base + l.data then before (l.image + (a - l.base)) else before a :=
    fun a => start1d_apply (by omega)
  constructor
  · intro i core b inside
    obtain rfl : i = 0 := by omega
    rw [first, copy, if_pos (by omega), Nat.add_sub_cancel_left]
  · intro i none
    exact absurd none (Nat.not_lt_zero i)
  · intro a outside
    have here := outside 0 some
    rw [first] at here
    rw [copy, if_neg (by omega)]

/-- One more region, from the first. -/
theorem Apart.filled_copy (apart : l.Apart) (inside : k + 1 < l.count)
    (filled : l.Filled before (k + 1) 0 m) :
    l.Filled before (k + 2) 0 (snrtDmaStart1d (l.start (k + 1)) l.base l.data m) := by
  have first : l.start 0 = l.base := by simp [start]
  have above : l.start 0 + l.data + l.zeros ≤ l.start (k + 1) := apart.ordered (Nat.succ_pos k)
  rw [first] at above
  have copy : ∀ a, snrtDmaStart1d (l.start (k + 1)) l.base l.data m a =
      if l.start (k + 1) ≤ a ∧ a < l.start (k + 1) + l.data
      then m (l.base + (a - l.start (k + 1))) else m a := fun a => start1d_apply (by omega)
  constructor
  · intro i core b byte
    rw [copy]
    rcases Nat.lt_or_eq_of_le (Nat.le_of_lt_succ core) with past | rfl
    · have below := apart.ordered past
      rw [if_neg (by omega), filled.data i past b byte]
    · have own := filled.data 0 (Nat.succ_pos k) b byte
      rw [first] at own
      rw [if_pos (by omega), Nat.add_sub_cancel_left, own]
  · intro i none
    exact absurd none (Nat.not_lt_zero i)
  · intro a outside
    have here := outside (k + 1) inside
    rw [copy, if_neg (by omega), filled.others a outside]

/-- The zeros of one more region. -/
theorem Apart.filled_zeros (apart : l.Apart) (inside : k < l.count)
    (filled : l.Filled before l.count k m) :
    l.Filled before l.count (k + 1) (snrtDmaMemset (l.start k + l.data) 0 l.zeros m) := by
  constructor
  · intro i core b byte
    have away : ¬(l.start k + l.data ≤ l.start i + b ∧
        l.start i + b < l.start k + l.data + l.zeros) := by
      rcases Nat.lt_trichotomy i k with less | rfl | less
      · have gap := apart.ordered less
        omega
      · omega
      · have gap := apart.ordered less
        omega
    rw [memset_apply, if_neg away, filled.data i core b byte]
  · intro i upto b byte
    rw [memset_apply]
    rcases Nat.lt_or_eq_of_le (Nat.le_of_lt_succ upto) with past | rfl
    · have gap := apart.ordered past
      rw [if_neg (by omega), filled.zeros i past b byte]
    · rw [if_pos (by omega)]
  · intro a outside
    have here := outside k inside
    rw [memset_apply, if_neg (by omega), filled.others a outside]

/-- A copy from the image, the copies from the first region, and the zeros. -/
def fill (l : Layout) (m : Memory) : Memory :=
  loop l.count (fun k => snrtDmaMemset (l.start k + l.data) 0 l.zeros)
    (loop (l.count - 1) (fun k => snrtDmaStart1d (l.start (k + 1)) l.base l.data)
      (snrtDmaStart1d l.base l.image l.data m))

/-- **All regions are filled.** -/
theorem Apart.filled (apart : l.Apart) (some : 0 < l.count) :
    l.Filled before l.count l.count (l.fill before) := by
  have copied := Loops.loop_invariant (n := l.count - 1) (fun k => l.Filled before (k + 1) 0)
    (apart.filled_own some) fun k inside _ filled => apart.filled_copy (by omega) filled
  rw [Nat.sub_add_cancel some] at copied
  exact Loops.loop_invariant (n := l.count) (l.Filled before l.count) copied
    fun k inside _ filled => apart.filled_zeros inside filled

end Layout

/-! ## The thread pointers -/

section Pointers

variable (cfg : Config) (c : Nat)

/-- What the startup code puts in `tp` on core `i` of cluster `c`. -/
def tp (regs : Nat → Regs) (i : Nat) : BitVec 32 :=
  (cfg.initTls (cfg.initToStack (cfg.hart c i) (regs i))).tp

/-- `snrt_is_dm_core`: the last of the cluster. -/
def dmCore : Nat := cfg.clusterCoreNum.toNat - 1

/-- The bytes from one thread-local storage to the next. -/
def offset : Nat := 2 ^ cfg.log2StackSize + 8

/-- The image of the initialised part is not in the storage of any core. -/
def ImageOutside (regs : Nat → Regs) : Prop := ∀ i < cfg.clusterCoreNum.toNat,
  (tp cfg c regs i).toNat + cfg.tdata.size.toNat + cfg.tbss.size.toNat ≤ cfg.tdata.start.toNat ∨
    cfg.tdata.start.toNat + cfg.tdata.size.toNat ≤ (tp cfg c regs i).toNat

/-- Every core finds the image at its `tp` and zeros behind it, and nothing else is written. -/
structure Initialised (regs : Nat → Regs) (before after : Memory) : Prop where
  tdata : ∀ i < cfg.clusterCoreNum.toNat, ∀ b < cfg.tdata.size.toNat,
    after ((tp cfg c regs i).toNat + b) = before (cfg.tdata.start.toNat + b)
  tbss : ∀ i < cfg.clusterCoreNum.toNat, ∀ b < cfg.tbss.size.toNat,
    after ((tp cfg c regs i).toNat + cfg.tdata.size.toNat + b) = 0
  others : ∀ a, (∀ i < cfg.clusterCoreNum.toNat, ¬((tp cfg c regs i).toNat ≤ a ∧
    a < (tp cfg c regs i).toNat + cfg.tdata.size.toNat + cfg.tbss.size.toNat)) → after a = before a

variable {cfg c} (fits : cfg.StacksFit c) (aligned : 3 ≤ cfg.log2StackSize)
  (inside : cfg.tdata.size.toNat + cfg.tbss.size.toNat ≤ 2 ^ cfg.log2StackSize)

theorem offset_aligned (aligned : 3 ≤ cfg.log2StackSize) : offset cfg % 8 = 0 := by
  have power : 2 ^ cfg.log2StackSize % 2 ^ 3 = 0 :=
    Nat.mod_eq_zero_of_dvd (Nat.pow_dvd_pow 2 aligned)
  unfold offset
  omega

include fits inside

/-- Where the storage of core `i` starts. -/
theorem toNat_tp (regs : Nat → Regs) {i : Nat} (core : i < cfg.clusterCoreNum.toNat) :
    (tp cfg c regs i).toNat = (cfg.clsStart c - (i + 1) * offset cfg + 2 ^ cfg.log2StackSize -
      cfg.tdata.size.toNat - cfg.tbss.size.toNat) / 8 * 8 := by
  have top := fits.toNat_sp core (regs i)
  have width := (cfg.initToStack (cfg.hart c i) (regs i)).sp.isLt
  have data := Config.toNat_sub_of_le (Nat.mod_eq_of_lt width).symm (b := cfg.tdata.size) (by omega)
  have bss := Config.toNat_sub_of_le data (b := cfg.tbss.size) (by omega)
  simp only [tp, Config.initTls]
  rw [Config.toNat_andNot7, bss, Nat.mod_eq_of_lt (by omega), top]
  rfl

include aligned

/-- **The storage of the cores is at a constant offset**, counted from the last. -/
theorem tp_offset (regs : Nat → Regs) {k : Nat} (core : k < cfg.clusterCoreNum.toNat) :
    (tp cfg c regs (dmCore cfg - k)).toNat =
      (tp cfg c regs (dmCore cfg)).toNat + k * offset cfg := by
  have room := fits.room
  have tcdm := fits.tcdm
  have start : cfg.clsStart c = (cfg.tcdmBase c).toNat + cfg.tcdmSize.toNat - cfg.clsSize := rfl
  have last : dmCore cfg < cfg.clusterCoreNum.toNat := by
    unfold dmCore
    omega
  have eighths : k * offset cfg % 8 = 0 := by
    rw [Nat.mul_mod, offset_aligned aligned, Nat.mul_zero, Nat.zero_mod]
  have below : (dmCore cfg + 1) * offset cfg ≤ cfg.clsStart c := by
    have all : dmCore cfg + 1 = cfg.clusterCoreNum.toNat := by
      unfold dmCore
      omega
    rw [all]
    unfold offset
    omega
  have split : (dmCore cfg + 1) * offset cfg =
      (dmCore cfg - k + 1) * offset cfg + k * offset cfg := by
    rw [← Nat.add_mul]
    congr 1
    unfold dmCore at last ⊢
    omega
  rw [toNat_tp fits inside regs (by omega), toNat_tp fits inside regs last]
  omega

omit aligned in
/-- The storage of the first core ends below the sections. -/
theorem tp_last (regs : Nat → Regs) : (tp cfg c regs 0).toNat + cfg.tdata.size.toNat +
    cfg.tbss.size.toNat + 8 ≤ cfg.clsStart c := by
  have room := fits.room
  have one : 1 * (2 ^ cfg.log2StackSize + 8) ≤
      cfg.clusterCoreNum.toNat * (2 ^ cfg.log2StackSize + 8) :=
    Nat.mul_le_mul_right _ fits.cores
  have start : cfg.clsStart c = (cfg.tcdmBase c).toNat + cfg.tcdmSize.toNat - cfg.clsSize := rfl
  have own := toNat_tp fits inside regs fits.cores
  unfold offset at own
  omega

omit aligned in
theorem toNat_offset : (1#32 <<< cfg.log2StackSize + 8).toNat = offset cfg := by
  have last := tp_last fits inside fun _ => ⟨0, 0, 0, 0, 0⟩
  obtain ⟨-, small⟩ := fits.width
  have room := fits.room
  have tcdm := fits.tcdm
  have one : 1 * (2 ^ cfg.log2StackSize + 8) ≤
      cfg.clusterCoreNum.toNat * (2 ^ cfg.log2StackSize + 8) :=
    Nat.mul_le_mul_right _ fits.cores
  have stack : (1#32 <<< cfg.log2StackSize).toNat = 1 * 2 ^ cfg.log2StackSize :=
    Config.toNat_shiftLeft_of_lt (i := 1) (by omega) (by omega)
  have eight : (8 : BitVec 32).toNat = 8 := rfl
  unfold offset
  rw [BitVec.toNat_add, stack, eight]
  omega

/-- The regions `snrt_init_tls` fills. -/
def layout (cfg : Config) (c : Nat) (regs : Nat → Regs) : Layout where
  image := cfg.tdata.start.toNat
  base := (tp cfg c regs (dmCore cfg)).toNat
  stride := offset cfg
  data := cfg.tdata.size.toNat
  zeros := cfg.tbss.size.toNat
  count := cfg.clusterCoreNum.toNat

/-- A region is the storage of a core, from the last. -/
theorem layout_start (regs : Nat → Regs) {k : Nat} (core : k < cfg.clusterCoreNum.toNat) :
    (layout cfg c regs).start k = (tp cfg c regs (dmCore cfg - k)).toNat :=
  (tp_offset fits aligned inside regs core).symm

theorem layout_apart (regs : Nat → Regs) (image : ImageOutside cfg c regs) :
    (layout cfg c regs).Apart := by
  constructor
  · exact inside.trans (Nat.le_add_right _ 8)
  · intro k core
    have small : dmCore cfg - k < cfg.clusterCoreNum.toNat := by
      have some := fits.cores
      unfold dmCore
      omega
    rw [layout_start fits aligned inside regs core]
    exact image _ small

/-- The addresses the code computes are those of the regions: nothing wraps. -/
theorem toNat_region (regs : Nat → Regs) {k : Nat} (core : k < cfg.clusterCoreNum.toNat) :
    (tp cfg c regs (dmCore cfg) + BitVec.ofNat 32 k *
        (1#32 <<< cfg.log2StackSize + 8)).toNat = (layout cfg c regs).start k ∧
      (tp cfg c regs (dmCore cfg) + cfg.tdata.size + BitVec.ofNat 32 k *
        (1#32 <<< cfg.log2StackSize + 8)).toNat = (layout cfg c regs).start k +
          (layout cfg c regs).data := by
  have some := fits.cores
  have tcdm := fits.tcdm
  have last := tp_last fits inside regs
  have top : (tp cfg c regs 0).toNat = (layout cfg c regs).start (dmCore cfg) := by
    have is := layout_start fits aligned inside regs (k := dmCore cfg) (by unfold dmCore; omega)
    rw [is, Nat.sub_self]
  have upto : k * offset cfg ≤ dmCore cfg * offset cfg :=
    Nat.mul_le_mul_right _ (by unfold dmCore; omega)
  have factor : (BitVec.ofNat 32 k).toNat = k := by
    rw [BitVec.toNat_ofNat, Nat.mod_eq_of_lt (by omega)]
  have start : cfg.clsStart c = (cfg.tcdmBase c).toNat + cfg.tcdmSize.toNat - cfg.clsSize := rfl
  simp only [layout, Layout.start] at top ⊢
  have step : (BitVec.ofNat 32 k * (1#32 <<< cfg.log2StackSize + 8)).toNat = k * offset cfg := by
    rw [BitVec.toNat_mul, factor, toNat_offset fits inside, Nat.mod_eq_of_lt (by omega)]
  rw [BitVec.toNat_add, BitVec.toNat_add, BitVec.toNat_add, step]
  omega

/-- The code fills the regions. -/
theorem snrtInitTls_eq (regs : Nat → Regs) (m : Memory) :
    snrtInitTls cfg (tp cfg c regs (dmCore cfg)) m = (layout cfg c regs).fill m := by
  have region {k : Nat} := toNat_region fits aligned inside regs (k := k)
  unfold snrtInitTls Layout.fill
  refine (Loops.loop_congr fun k core m => ?_).trans
    (congrArg (loop _ _) (Loops.loop_congr fun k core m => ?_))
  · rw [(region core).2]
    rfl
  · rw [(region (by omega)).1]
    rfl

end Pointers

/-- **Thread-local storage is initialised where each core looks for it**, and nowhere else. -/
theorem tls_initialised (cfg : Config) (c : Nat) (regs : Nat → Regs) (m : Memory)
    (fits : cfg.StacksFit c) (aligned : 3 ≤ cfg.log2StackSize)
    (inside : cfg.tdata.size.toNat + cfg.tbss.size.toNat ≤ 2 ^ cfg.log2StackSize)
    (image : ImageOutside cfg c regs) :
    Initialised cfg c regs m (snrtInitTls cfg (tp cfg c regs (dmCore cfg)) m) := by
  have some := fits.cores
  have apart := layout_apart fits aligned inside regs image
  have filled : (layout cfg c regs).Filled m _ _ _ := apart.filled some
  rw [← snrtInitTls_eq fits aligned inside regs m] at filled
  have core : ∀ i < cfg.clusterCoreNum.toNat, (layout cfg c regs).start (dmCore cfg - i) =
      (tp cfg c regs i).toNat ∧ dmCore cfg - i < cfg.clusterCoreNum.toNat := by
    intro i small
    have mirrored : dmCore cfg - (dmCore cfg - i) = i := by
      unfold dmCore
      omega
    have inside' : dmCore cfg - i < cfg.clusterCoreNum.toNat := by
      unfold dmCore
      omega
    exact ⟨by rw [layout_start fits aligned inside regs inside', mirrored], inside'⟩
  constructor
  · intro i small b byte
    obtain ⟨here, mirrored⟩ := core i small
    rw [← here]
    exact filled.data _ mirrored b byte
  · intro i small b byte
    obtain ⟨here, mirrored⟩ := core i small
    rw [← here]
    exact filled.zeros _ mirrored b byte
  · intro a outside
    refine filled.others a fun k small => ?_
    rw [layout_start fits aligned inside regs small]
    exact outside _ (by unfold dmCore; omega)

/-- Nine cores, sixteen bytes of data and 112 of zeros. -/
theorem tls_initialised_nine :
    ImageOutside (Config.small 9) 0 (fun _ => ⟨0, 0, 0, 0, 0⟩) ∧
      Initialised (Config.small 9) 0 (fun _ => ⟨0, 0, 0, 0, 0⟩) (BitVec.ofNat 8)
        (snrtInitTls (Config.small 9)
          (tp (Config.small 9) 0 (fun _ => ⟨0, 0, 0, 0, 0⟩) (dmCore (Config.small 9)))
          (BitVec.ofNat 8)) := by
  have image : ImageOutside (Config.small 9) 0 (fun _ => ⟨0, 0, 0, 0, 0⟩) := by
    unfold ImageOutside
    decide
  have stacksFit := Config.fits_small_nine.stacks
  exact ⟨image, tls_initialised (Config.small 9) 0 _ _ stacksFit (by decide) (by decide) image⟩

end SnitchCluster.Runtime.ThreadLocal
