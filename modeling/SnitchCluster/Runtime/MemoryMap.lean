/-
# Runtime.MemoryMap -- who owns which part of the TCDM

The top of a cluster's TCDM is divided twice.  The startup code of every hart walks
down from the end of the memory, past the cluster-local sections and a word for the
return value, to the top of its own stack; successive stacks are kept apart by eight
more bytes, so that equal offsets fall into different banks.  `snrt_l1_init` starts
from the same end and leaves the heap everything below the sections, the bare stacks
and a margin of 128 bytes.

The eight bytes per hart come out of the margin, which is gone when there are sixteen
harts (`memory_map`).
-/
import Mathlib.Order.CompletePartialOrder
import Mathlib.Order.Interval.Set.Disjoint
import Mathlib.Tactic.Ring

namespace SnitchCluster.Runtime.MemoryMap

/-- The symbols around a section of the program. -/
structure Section where
  start : BitVec 32
  stop : BitVec 32
  deriving DecidableEq, Repr

def Section.size (sec : Section) : BitVec 32 := sec.stop - sec.start

/-- The constants of the configuration and the linker.  `tcdmMem` is the address of
`snrt_cluster()->tcdm.mem`, by the index of the cluster. -/
structure Config where
  baseHartid : BitVec 32
  clusterCoreNum : BitVec 32
  tcdmStartAddr : BitVec 32
  clusterOffset : BitVec 32
  tcdmSize : BitVec 32
  log2StackSize : Nat
  tcdmMem : BitVec 32 → BitVec 32
  cdata : Section
  cbss : Section
  tdata : Section
  tbss : Section

/-- The registers the startup code passes on. -/
structure Regs where
  a0 : BitVec 32
  a1 : BitVec 32
  a2 : BitVec 32
  sp : BitVec 32
  tp : BitVec 32
  deriving DecidableEq, Repr

namespace Config

variable (cfg : Config)

/-! ## The startup code -/

/-- `a0` becomes the index of the core in its cluster, `a1` the number of cores and `a2`
the end of the TCDM. -/
def initCoreInfo (mhartid : BitVec 32) (regs : Regs) : Regs :=
  let a0 := mhartid - cfg.baseHartid
  let a1 := cfg.clusterCoreNum
  let t0 := a0.sdiv a1
  { regs with
    a0 := a0 % a1
    a1
    a2 := cfg.tcdmStartAddr + cfg.clusterOffset * t0 + cfg.tcdmSize }

def initCls (regs : Regs) : Regs :=
  { regs with a2 := regs.a2 - cfg.cdata.size - cfg.cbss.size }

def initStack (regs : Regs) : Regs :=
  let a2 := regs.a2 - 8
  { regs with
    a2 := a2 - regs.a1 <<< 3
    sp := a2 - regs.a0 <<< cfg.log2StackSize - regs.a0 <<< 3 }

def initTls (regs : Regs) : Regs :=
  let sp := (regs.sp - cfg.tdata.size - cfg.tbss.size) &&& ~~~7#32
  { regs with sp, tp := sp }

/-- Up to the first stack frame. -/
def initToStack (mhartid : BitVec 32) (regs : Regs) : Regs :=
  cfg.initStack (cfg.initCls (cfg.initCoreInfo mhartid regs))

/-! ## The C side -/

def snrtGlobalCoreIdx (mhartid : BitVec 32) : BitVec 32 := mhartid - cfg.baseHartid

def snrtClusterIdx (mhartid : BitVec 32) : BitVec 32 :=
  cfg.snrtGlobalCoreIdx mhartid / cfg.clusterCoreNum

def snrtClsBaseAddr (mhartid : BitVec 32) : BitVec 32 :=
  let l1EndAddr :=
    cfg.tcdmStartAddr + cfg.snrtClusterIdx mhartid * cfg.clusterOffset + cfg.tcdmSize
  l1EndAddr - cfg.cdata.size - cfg.cbss.size

end Config

/-- `MIN_CHUNK_SIZE`. -/
def minChunkSize : BitVec 32 := 8

def snrtAlignUp (addr size base : BitVec 32) : BitVec 32 :=
  (addr - base + size - 1) / size * size + base

/-- `snrt_allocator_t`. -/
structure Allocator where
  base : BitVec 64
  end_ : BitVec 64
  next : BitVec 64
  deriving DecidableEq, Repr

namespace Config

variable (cfg : Config)

def snrtL1Init (mhartid : BitVec 32) : Allocator :=
  let heapEndAddr := cfg.snrtClsBaseAddr mhartid - (1#32 <<< cfg.log2StackSize) * cfg.clusterCoreNum
  let heapEndAddr := heapEndAddr - 128
  let base := snrtAlignUp (cfg.tcdmMem (cfg.snrtClusterIdx mhartid)) minChunkSize 0
  { base := base.setWidth 64, end_ := heapEndAddr.setWidth 64, next := base.setWidth 64 }

/-! ## The regions of a cluster -/

/-- The `mhartid` of core `i` of cluster `c`. -/
def hart (c i : Nat) : BitVec 32 :=
  cfg.baseHartid + BitVec.ofNat 32 (c * cfg.clusterCoreNum.toNat + i)

def tcdmBase (c : Nat) : BitVec 32 :=
  cfg.tcdmStartAddr + cfg.clusterOffset * BitVec.ofNat 32 c

/-- The bytes of the cluster-local sections. -/
def clsSize : Nat := cfg.cdata.size.toNat + cfg.cbss.size.toNat

def heap (c : Nat) : Allocator := cfg.snrtL1Init (cfg.hart c 0)

/-- The stack of core `i`, thread-local storage included; the registers hold anything on reset. -/
def stack (c i : Nat) (regs : Regs) : Set Nat :=
  let top := (cfg.initToStack (cfg.hart c i) regs).sp.toNat
  Set.Ico (top - 2 ^ cfg.log2StackSize) top

def cls (c : Nat) : Set Nat :=
  let base := (cfg.snrtClsBaseAddr (cfg.hart c 0)).toNat
  Set.Ico base (base + cfg.clsSize)

/-- The heap, the stacks and the sections fit in the TCDM of cluster `c`, and it with its
predecessors in the address space. -/
structure Fits (c : Nat) : Prop where
  cores : 0 < cfg.clusterCoreNum.toNat
  clusters : (c + 1) * cfg.tcdmSize.toNat ≤ 2 ^ 32
  tcdm : (cfg.tcdmBase c).toNat + cfg.tcdmSize.toNat ≤ 2 ^ 32
  inside : (cfg.tcdmBase c).toNat ≤ (cfg.heap c).base.toNat
  room : (cfg.heap c).base.toNat + cfg.clusterCoreNum.toNat * (2 ^ cfg.log2StackSize + 8) +
    cfg.clsSize ≤ (cfg.tcdmBase c).toNat + cfg.tcdmSize.toNat
  margin : (cfg.heap c).base.toNat + cfg.clusterCoreNum.toNat * 2 ^ cfg.log2StackSize + 128 +
    cfg.clsSize ≤ (cfg.tcdmBase c).toNat + cfg.tcdmSize.toNat

/-- The stacks and the sections alone fit. -/
structure StacksFit (c : Nat) : Prop where
  cores : 0 < cfg.clusterCoreNum.toNat
  clusters : (c + 1) * cfg.tcdmSize.toNat ≤ 2 ^ 32
  tcdm : (cfg.tcdmBase c).toNat + cfg.tcdmSize.toNat ≤ 2 ^ 32
  room : cfg.clusterCoreNum.toNat * (2 ^ cfg.log2StackSize + 8) + cfg.clsSize ≤ cfg.tcdmSize.toNat

/-- A heap, the stacks and the cluster-local storage are pairwise disjoint. -/
structure NoOverlap (c : Nat) (heap : Set Nat) : Prop where
  heap_cls : Disjoint heap (cfg.cls c)
  heap_stack : ∀ i < cfg.clusterCoreNum.toNat, ∀ regs, Disjoint heap (cfg.stack c i regs)
  stack_cls : ∀ i < cfg.clusterCoreNum.toNat, ∀ regs, Disjoint (cfg.stack c i regs) (cfg.cls c)
  stack_stack : ∀ i < cfg.clusterCoreNum.toNat, ∀ j < cfg.clusterCoreNum.toNat, i ≠ j →
    ∀ regs regs', Disjoint (cfg.stack c i regs) (cfg.stack c j regs')

/-! ## Where the two descriptions put them -/

section Fits

variable {cfg} {c : Nat}

theorem Fits.stacks (fits : cfg.Fits c) : cfg.StacksFit c := by
  have room := fits.room
  have inside := fits.inside
  exact ⟨fits.cores, fits.clusters, fits.tcdm, by omega⟩

/-- The harts up to this cluster have indices that are not negative for `div`. -/
theorem StacksFit.harts (fits : cfg.StacksFit c) :
    c * cfg.clusterCoreNum.toNat + cfg.clusterCoreNum.toNat < 2 ^ 31 := by
  have size : 9 * cfg.clusterCoreNum.toNat ≤ cfg.tcdmSize.toNat := by
    have room := fits.room
    have one : cfg.clusterCoreNum.toNat * 9 ≤ cfg.clusterCoreNum.toNat * (2 ^ cfg.log2StackSize + 8) :=
      Nat.mul_le_mul_left _ (Nat.add_le_add_right Nat.one_le_two_pow 8)
    omega
  have all : (c + 1) * (9 * cfg.clusterCoreNum.toNat) ≤ 2 ^ 32 :=
    (Nat.mul_le_mul_left _ size).trans fits.clusters
  have split : (c + 1) * (9 * cfg.clusterCoreNum.toNat) =
      9 * (c * cfg.clusterCoreNum.toNat + cfg.clusterCoreNum.toNat) := by ring
  omega

theorem hart_sub (cfg : Config) (c i : Nat) : cfg.hart c i - cfg.baseHartid =
    BitVec.ofNat 32 (c * cfg.clusterCoreNum.toNat + i) := by
  rw [hart, BitVec.add_comm, BitVec.add_sub_cancel]

theorem core_split {n i : Nat} (core : i < n) (c : Nat) :
    (c * n + i) / n = c ∧ (c * n + i) % n = i := by
  have some : 0 < n := by omega
  rw [Nat.mul_comm, Nat.mul_add_div some, Nat.div_eq_of_lt core, Nat.mul_add_mod,
    Nat.mod_eq_of_lt core]
  exact ⟨rfl, rfl⟩

theorem clusterIdx_hart
    (harts : c * cfg.clusterCoreNum.toNat + cfg.clusterCoreNum.toNat ≤ 2 ^ 32) {i : Nat}
    (core : i < cfg.clusterCoreNum.toNat) :
    cfg.snrtClusterIdx (cfg.hart c i) = BitVec.ofNat 32 c := by
  apply BitVec.eq_of_toNat_eq
  rw [snrtClusterIdx, snrtGlobalCoreIdx, hart_sub, BitVec.toNat_udiv, BitVec.toNat_ofNat,
    Nat.mod_eq_of_lt (by omega), (core_split core c).1, BitVec.toNat_ofNat, Nat.mod_eq_of_lt]
  have := Nat.le_mul_of_pos_right c (Nat.zero_lt_of_lt core)
  omega

theorem StacksFit.clusterIdx (fits : cfg.StacksFit c) {i : Nat} (core : i < cfg.clusterCoreNum.toNat) :
    cfg.snrtClusterIdx (cfg.hart c i) = BitVec.ofNat 32 c :=
  clusterIdx_hart (fits.harts.le.trans (by decide)) core

/-- All cores of a cluster compute the same heap. -/
theorem snrtL1Init_hart (harts : c * cfg.clusterCoreNum.toNat + cfg.clusterCoreNum.toNat ≤ 2 ^ 32)
    {i : Nat} (core : i < cfg.clusterCoreNum.toNat) :
    cfg.snrtL1Init (cfg.hart c i) = cfg.heap c := by
  have mine := clusterIdx_hart harts core
  have first := clusterIdx_hart harts (Nat.zero_lt_of_lt core)
  simp only [heap, snrtL1Init, snrtClsBaseAddr, mine, first]

/-- What the startup code knows after its first part. -/
theorem StacksFit.coreInfo (fits : cfg.StacksFit c) {i : Nat} (core : i < cfg.clusterCoreNum.toNat)
    (regs : Regs) : cfg.initCoreInfo (cfg.hart c i) regs = { regs with
      a0 := BitVec.ofNat 32 i, a1 := cfg.clusterCoreNum, a2 := cfg.tcdmBase c + cfg.tcdmSize } := by
  have hart := fits.harts
  have unsigned : (BitVec.ofNat 32 (c * cfg.clusterCoreNum.toNat + i)).sdiv cfg.clusterCoreNum =
      BitVec.ofNat 32 c := by
    have positive : (BitVec.ofNat 32 (c * cfg.clusterCoreNum.toNat + i)).msb = false := by
      rw [BitVec.msb_eq_false_iff_two_mul_lt, BitVec.toNat_ofNat, Nat.mod_eq_of_lt (by omega)]
      omega
    have positive' : cfg.clusterCoreNum.msb = false := by
      rw [BitVec.msb_eq_false_iff_two_mul_lt]
      omega
    have unsigned := fits.clusterIdx core
    rw [snrtClusterIdx, snrtGlobalCoreIdx, hart_sub] at unsigned
    rw [BitVec.sdiv_eq, positive, positive']
    exact unsigned
  have rest : BitVec.ofNat 32 (c * cfg.clusterCoreNum.toNat + i) % cfg.clusterCoreNum =
      BitVec.ofNat 32 i := by
    apply BitVec.eq_of_toNat_eq
    rw [BitVec.toNat_umod, BitVec.toNat_ofNat, BitVec.toNat_ofNat,
      Nat.mod_eq_of_lt (a := c * cfg.clusterCoreNum.toNat + i) (by omega), (core_split core c).2,
      Nat.mod_eq_of_lt (by omega)]
  simp only [initCoreInfo, hart_sub, unsigned, rest, tcdmBase]

/-- Where the cluster-local sections start; one past the address space if they are empty
and the TCDM ends there. -/
def clsStart (cfg : Config) (c : Nat) : Nat :=
  (cfg.tcdmBase c).toNat + cfg.tcdmSize.toNat - cfg.clsSize

theorem toNat_sub_of_le {a b : BitVec 32} {m : Nat} (is : a.toNat = m % 2 ^ 32)
    (le : b.toNat ≤ m) : (a - b).toNat = (m - b.toNat) % 2 ^ 32 := by
  have width := b.isLt
  rw [BitVec.toNat_sub, is]
  omega

theorem StacksFit.toNat_end (fits : cfg.StacksFit c) :
    (cfg.tcdmBase c + cfg.tcdmSize - cfg.cdata.size - cfg.cbss.size).toNat =
      cfg.clsStart c % 2 ^ 32 := by
  have room := fits.room
  unfold clsSize at room
  rw [clsStart, clsSize, Nat.sub_add_eq]
  refine toNat_sub_of_le (toNat_sub_of_le (BitVec.toNat_add _ _) ?_) ?_ <;> omega

theorem StacksFit.clsBase (fits : cfg.StacksFit c) {i : Nat} (core : i < cfg.clusterCoreNum.toNat) :
    cfg.snrtClsBaseAddr (cfg.hart c i) = cfg.tcdmBase c + cfg.tcdmSize - cfg.cdata.size -
      cfg.cbss.size := by
  simp only [snrtClsBaseAddr, fits.clusterIdx core, tcdmBase, BitVec.mul_comm]

theorem StacksFit.width (fits : cfg.StacksFit c) :
    cfg.clusterCoreNum.toNat * 2 ^ cfg.log2StackSize + 8 * cfg.clusterCoreNum.toNat + cfg.clsSize ≤
      cfg.tcdmSize.toNat ∧ cfg.log2StackSize < 32 := by
  have room := fits.room
  have tcdm := fits.tcdm
  have cores := fits.cores
  rw [Nat.mul_add] at room
  have one : 2 ^ cfg.log2StackSize ≤ cfg.clusterCoreNum.toNat * 2 ^ cfg.log2StackSize :=
    Nat.le_mul_of_pos_left _ cores
  refine ⟨by omega, (Nat.pow_lt_pow_iff_right (by omega : 1 < 2)).mp ?_⟩
  omega

theorem toNat_shiftLeft_of_lt {i k : Nat} (fit : i * 2 ^ k < 2 ^ 32) (le : i < 2 ^ 32) :
    (BitVec.ofNat 32 i <<< k).toNat = i * 2 ^ k := by
  rw [BitVec.toNat_shiftLeft, BitVec.toNat_ofNat, Nat.mod_eq_of_lt le, Nat.shiftLeft_eq,
    Nat.mod_eq_of_lt fit]

/-- The stack of core `i` ends below the sections, a word, and the stacks before it. -/
theorem StacksFit.toNat_sp (fits : cfg.StacksFit c) {i : Nat} (core : i < cfg.clusterCoreNum.toNat)
    (regs : Regs) : (cfg.initToStack (cfg.hart c i) regs).sp.toNat =
      cfg.clsStart c - (i + 1) * (2 ^ cfg.log2StackSize + 8) + 2 ^ cfg.log2StackSize := by
  obtain ⟨width, -⟩ := fits.width
  have tcdm := fits.tcdm
  have upto : (i + 1) * 2 ^ cfg.log2StackSize ≤ cfg.clusterCoreNum.toNat * 2 ^ cfg.log2StackSize :=
    Nat.mul_le_mul_right _ core
  have start : cfg.clsStart c = (cfg.tcdmBase c).toNat + cfg.tcdmSize.toNat - cfg.clsSize := rfl
  have above := fits.toNat_end
  have mine : (BitVec.ofNat 32 i <<< cfg.log2StackSize).toNat = i * 2 ^ cfg.log2StackSize :=
    toNat_shiftLeft_of_lt (by rw [Nat.add_mul] at upto; omega) (by omega)
  have apart : (BitVec.ofNat 32 i <<< 3).toNat = i * 2 ^ 3 :=
    toNat_shiftLeft_of_lt (by omega) (by omega)
  rw [Nat.add_mul] at upto
  have eight : (8 : BitVec 32).toNat = 8 := rfl
  have word := toNat_sub_of_le (b := 8) above (by omega)
  have before := toNat_sub_of_le word (b := BitVec.ofNat 32 i <<< cfg.log2StackSize) (by omega)
  have top := toNat_sub_of_le before (b := BitVec.ofNat 32 i <<< 3) (by omega)
  simp only [initToStack, fits.coreInfo core, initCls, initStack]
  rw [top, mine, apart, Nat.add_mul, Nat.mul_add]
  omega

theorem StacksFit.stack_eq (fits : cfg.StacksFit c) {i : Nat} (core : i < cfg.clusterCoreNum.toNat)
    (regs : Regs) : cfg.stack c i regs =
      Set.Ico (cfg.clsStart c - (i + 1) * (2 ^ cfg.log2StackSize + 8))
        (cfg.clsStart c - (i + 1) * (2 ^ cfg.log2StackSize + 8) + 2 ^ cfg.log2StackSize) := by
  rw [stack, fits.toNat_sp core, Nat.add_sub_cancel]

theorem toNat_andNot7 (x : BitVec 32) : (x &&& ~~~7#32).toNat = x.toNat / 8 * 8 := by
  have same : x &&& ~~~7#32 = (x >>> 3) <<< 3 := by
    apply BitVec.eq_of_getLsbD_eq
    intro i less
    have low : (7#32).getLsbD i = decide (i < 3) := by
      revert i
      decide
    rw [BitVec.getLsbD_and, BitVec.getLsbD_not, low, BitVec.getLsbD_shiftLeft, BitVec.getLsbD_ushiftRight]
    by_cases below : i < 3
    · simp [below]
    · simp [below, less, Nat.add_sub_cancel' (Nat.le_of_not_lt below)]
  have width := x.isLt
  rw [same, BitVec.toNat_shiftLeft, BitVec.toNat_ushiftRight, Nat.shiftRight_eq_div_pow,
    Nat.shiftLeft_eq, Nat.mod_eq_of_lt]
  omega

/-- Thread-local storage that is not larger than a stack is part of it. -/
theorem Fits.tls_subset (fits : cfg.Fits c) {i : Nat} (core : i < cfg.clusterCoreNum.toNat)
    (regs : Regs) (small : cfg.tdata.size.toNat + cfg.tbss.size.toNat + 7 ≤ 2 ^ cfg.log2StackSize) :
    let tp := (cfg.initTls (cfg.initToStack (cfg.hart c i) regs)).tp.toNat
    Set.Ico tp (tp + cfg.tdata.size.toNat + cfg.tbss.size.toNat) ⊆ cfg.stack c i regs := by
  have top := fits.stacks.toNat_sp core regs
  have width := (cfg.initToStack (cfg.hart c i) regs).sp.isLt
  have data := toNat_sub_of_le (Nat.mod_eq_of_lt width).symm (b := cfg.tdata.size) (by omega)
  have bss := toNat_sub_of_le data (b := cfg.tbss.size) (by omega)
  have tp : (cfg.initTls (cfg.initToStack (cfg.hart c i) regs)).tp.toNat =
      ((cfg.initToStack (cfg.hart c i) regs).sp.toNat - cfg.tdata.size.toNat -
        cfg.tbss.size.toNat) / 8 * 8 := by
    simp only [initTls]
    rw [toNat_andNot7, bss, Nat.mod_eq_of_lt (by omega)]
  intro tp' a here
  obtain ⟨low, high⟩ := here
  rw [fits.stacks.stack_eq core]
  constructor <;> omega

theorem Fits.cls_eq (fits : cfg.Fits c) :
    cfg.cls c = Set.Ico (cfg.clsStart c) (cfg.clsStart c + cfg.clsSize) := by
  have start : cfg.clsStart c = (cfg.tcdmBase c).toNat + cfg.tcdmSize.toNat - cfg.clsSize := rfl
  have tcdm := fits.tcdm
  rw [cls, fits.stacks.clsBase fits.cores, fits.stacks.toNat_end]
  by_cases empty : cfg.clsSize = 0
  · rw [empty, Nat.add_zero, Nat.add_zero, Set.Ico_self, Set.Ico_self]
  · obtain ⟨width, -⟩ := fits.stacks.width
    rw [Nat.mod_eq_of_lt (by omega)]

theorem Fits.heap_end (fits : cfg.Fits c) : (cfg.heap c).end_.toNat =
    cfg.clsStart c - cfg.clusterCoreNum.toNat * 2 ^ cfg.log2StackSize - 128 := by
  obtain ⟨width, small⟩ := fits.stacks.width
  have margin := fits.margin
  have inside := fits.inside
  have tcdm := fits.tcdm
  have start : cfg.clsStart c = (cfg.tcdmBase c).toNat + cfg.tcdmSize.toNat - cfg.clsSize := rfl
  have above := fits.stacks.toNat_end
  have all : (1#32 <<< cfg.log2StackSize * cfg.clusterCoreNum).toNat =
      cfg.clusterCoreNum.toNat * 2 ^ cfg.log2StackSize := by
    have one : (1#32 <<< cfg.log2StackSize).toNat = 1 * 2 ^ cfg.log2StackSize := by
      refine toNat_shiftLeft_of_lt (i := 1) ?_ (by omega)
      rw [Nat.one_mul]
      exact (Nat.pow_lt_pow_iff_right (by omega : 1 < 2)).mpr small
    rw [BitVec.toNat_mul, one, Nat.one_mul, Nat.mul_comm, Nat.mod_eq_of_lt (by omega)]
  have bottom := toNat_sub_of_le above (b := 1#32 <<< cfg.log2StackSize * cfg.clusterCoreNum) (by omega)
  have word : (128 : BitVec 32).toNat = 128 := rfl
  have safety := toNat_sub_of_le bottom (b := 128) (by omega)
  simp only [heap, snrtL1Init, fits.stacks.clsBase fits.cores, BitVec.toNat_setWidth]
  rw [safety, all]
  omega

/-- Where the lowest stack ends. -/
def bottom (cfg : Config) (c : Nat) : Nat :=
  cfg.clsStart c - cfg.clusterCoreNum.toNat * (2 ^ cfg.log2StackSize + 8)

/-- The stacks and the sections never overlap; a heap that stays below them overlaps nothing. -/
theorem Fits.noOverlap (fits : cfg.Fits c) {heap : Set Nat} (below : ∀ a ∈ heap, a < cfg.bottom c) :
    cfg.NoOverlap c heap := by
  have room : cfg.clusterCoreNum.toNat * (2 ^ cfg.log2StackSize + 8) ≤ cfg.clsStart c := by
    have room := fits.room
    unfold clsStart
    omega
  have positive : 0 < 2 ^ cfg.log2StackSize := Nat.two_pow_pos _
  -- the stacks are one after the other, from the sections down to the bottom
  have order : ∀ {i j : Nat}, i < j → j ≤ cfg.clusterCoreNum.toNat →
      cfg.clsStart c - j * (2 ^ cfg.log2StackSize + 8) + 2 ^ cfg.log2StackSize ≤
        cfg.clsStart c - i * (2 ^ cfg.log2StackSize + 8) := by
    intro i j less core
    have step : (i + 1) * (2 ^ cfg.log2StackSize + 8) ≤ j * (2 ^ cfg.log2StackSize + 8) :=
      Nat.mul_le_mul_right _ less
    have all : j * (2 ^ cfg.log2StackSize + 8) ≤
        cfg.clusterCoreNum.toNat * (2 ^ cfg.log2StackSize + 8) := Nat.mul_le_mul_right _ core
    rw [Nat.add_mul, Nat.one_mul] at step
    omega
  have apart : ∀ {i j : Nat} (regs regs' : Regs), i < j → j < cfg.clusterCoreNum.toNat →
      Disjoint (cfg.stack c i regs) (cfg.stack c j regs') := by
    intro i j regs regs' less core
    rw [fits.stacks.stack_eq (less.trans core), fits.stacks.stack_eq core, disjoint_comm,
      Set.Ico_disjoint_Ico]
    have gap := order (Nat.succ_lt_succ less) core
    exact (Nat.min_le_left _ _).trans (gap.trans (Nat.le_max_right _ _))
  have heap_below : ∀ {a : Nat}, a ∈ heap → ∀ {b : Nat}, cfg.bottom c ≤ b → a ≠ b :=
    fun here _ le => Nat.ne_of_lt ((below _ here).trans_le le)
  refine ⟨?_, ?_, ?_, ?_⟩
  · rw [fits.cls_eq]
    refine Set.disjoint_left.mpr fun a here there => heap_below here ?_ rfl
    exact (Nat.sub_le _ _).trans there.1
  · intro i core regs
    rw [fits.stacks.stack_eq core]
    refine Set.disjoint_left.mpr fun a here there => heap_below here (le_trans ?_ there.1) rfl
    exact Nat.sub_le_sub_left (Nat.mul_le_mul_right _ core) _
  · intro i core regs
    rw [fits.stacks.stack_eq core, fits.cls_eq, Set.Ico_disjoint_Ico]
    have under := order (Nat.succ_pos i) core
    rw [Nat.zero_mul, Nat.sub_zero] at under
    exact (Nat.min_le_left _ _).trans (under.trans (Nat.le_max_right _ _))
  · intro i core j core' other regs regs'
    rcases Nat.lt_or_gt_of_ne other with less | less
    · exact apart regs regs' less core'
    · exact (apart regs' regs less core).symm

/-- A heap that contains the bottom of the lowest stack overlaps it. -/
theorem Fits.not_noOverlap (fits : cfg.Fits c) {heap : Set Nat} (here : cfg.bottom c ∈ heap) :
    ¬cfg.NoOverlap c heap := by
  intro no
  have cores := fits.cores
  have last : cfg.clusterCoreNum.toNat - 1 < cfg.clusterCoreNum.toNat := by omega
  have there : cfg.bottom c ∈ cfg.stack c (cfg.clusterCoreNum.toNat - 1) ⟨0, 0, 0, 0, 0⟩ := by
    rw [fits.stacks.stack_eq last, Nat.sub_add_cancel cores]
    exact ⟨Nat.le_refl _, Nat.lt_add_of_pos_right (Nat.two_pow_pos _)⟩
  exact Set.disjoint_left.mp (no.heap_stack _ last _) here there

/-- **The memory map.**  The heap, its end included, keeps off the stacks and the
cluster-local storage exactly while a cluster has fewer than sixteen cores; its bytes
below the end do so for sixteen cores as well. -/
theorem memory_map (cfg : Config) (c : Nat) (fits : cfg.Fits c) :
    (cfg.NoOverlap c (Set.Icc (cfg.heap c).base.toNat (cfg.heap c).end_.toNat) ↔
        cfg.clusterCoreNum.toNat < 16) ∧
      (cfg.NoOverlap c (Set.Ico (cfg.heap c).base.toNat (cfg.heap c).end_.toNat) ↔
        cfg.clusterCoreNum.toNat ≤ 16) := by
  have stop := fits.heap_end
  have room := fits.room
  have margin := fits.margin
  have start : cfg.clsStart c = (cfg.tcdmBase c).toNat + cfg.tcdmSize.toNat - cfg.clsSize := rfl
  have low : cfg.bottom c = cfg.clsStart c -
      (cfg.clusterCoreNum.toNat * 2 ^ cfg.log2StackSize + cfg.clusterCoreNum.toNat * 8) := by
    rw [bottom, Nat.mul_add]
  rw [Nat.mul_add] at room
  refine ⟨⟨fun no => ?_, fun few => fits.noOverlap fun a here => ?_⟩,
    ⟨fun no => ?_, fun few => fits.noOverlap fun a here => ?_⟩⟩
  · by_contra many
    have here : cfg.bottom c ∈ Set.Icc (cfg.heap c).base.toNat (cfg.heap c).end_.toNat :=
      ⟨by omega, by omega⟩
    exact fits.not_noOverlap here no
  · have upto := here.2
    omega
  · by_contra many
    have here : cfg.bottom c ∈ Set.Ico (cfg.heap c).base.toNat (cfg.heap c).end_.toNat :=
      ⟨by omega, by omega⟩
    exact fits.not_noOverlap here no
  · have upto := here.2
    omega

/-- A TCDM of 128 KiB, stacks of 1 KiB, and as many cores as given. -/
def small (cores : BitVec 32) : Config where
  baseHartid := 0
  clusterCoreNum := cores
  tcdmStartAddr := 0x10000000
  clusterOffset := 0
  tcdmSize := 0x20000
  log2StackSize := 10
  tcdmMem _ := 0x10000000
  cdata := ⟨0x80008000, 0x80008000⟩
  cbss := ⟨0x80008000, 0x80008020⟩
  tdata := ⟨0x80007000, 0x80007010⟩
  tbss := ⟨0x80007010, 0x80007080⟩

theorem fits_small_nine : (small 9).Fits 0 := by
  constructor <;> decide

theorem memory_map_nine : (small 9).Fits 0 ∧ (small 9).NoOverlap 0
    (Set.Icc ((small 9).heap 0).base.toNat ((small 9).heap 0).end_.toNat) :=
  ⟨fits_small_nine, ((memory_map (small 9) 0 fits_small_nine).1).mpr (by decide)⟩

theorem Fits.tls_subset_nine : let tp := ((small 9).initTls ((small 9).initToStack
      ((small 9).hart 0 8) ⟨0, 0, 0, 0, 0⟩)).tp.toNat
    Set.Ico tp (tp + 16 + 112) ⊆ (small 9).stack 0 8 ⟨0, 0, 0, 0, 0⟩ :=
  fits_small_nine.tls_subset (by decide) _ (by decide)

theorem fits_small_seventeen : (small 17).Fits 0 := by
  constructor <;> decide

/-- With seventeen cores the last word of the heap is the lowest word of a stack. -/
theorem memory_overlap_seventeen : (small 17).Fits 0 ∧ ¬(small 17).NoOverlap 0
    (Set.Icc ((small 17).heap 0).base.toNat ((small 17).heap 0).end_.toNat) := by
  refine ⟨fits_small_seventeen, fun no => ?_⟩
  have here : 0x1001bb58 ∈ Set.Icc ((small 17).heap 0).base.toNat ((small 17).heap 0).end_.toNat :=
    ⟨by decide, by decide⟩
  have there : 0x1001bb58 ∈ (small 17).stack 0 16 ⟨0, 0, 0, 0, 0⟩ :=
    ⟨by decide, by decide⟩
  exact Set.disjoint_left.mp (no.heap_stack 16 (by decide) _) here there

end Fits

end Config

end SnitchCluster.Runtime.MemoryMap
