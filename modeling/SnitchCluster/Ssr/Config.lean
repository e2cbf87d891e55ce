/-
# Ssr.Config -- parameters, register map and software interface of a stream

The parameters of `snitch_ssr_pkg` with the ranges the cluster generator's schema
admits, the layout of the configuration registers, and the functions of `ssr.h`
as the register writes they make.
-/
import Mathlib.Algebra.Group.Nat.Defs
import Mathlib.Data.Nat.Log

namespace SnitchCluster.Ssr

/-! ## Parameters -/

/-- `ssr_cfg_t`, with the width of a byte offset in a data word.  The ranges are
those of the generator's schema; a data word is a power of two of bytes, at least
two. -/
structure Cfg where
  Indirection : Bool := false
  IsectMaster : Bool := false
  IsectSlave : Bool := false
  IsectSlaveSpill : Bool := true
  IndirOutSpill : Bool := true
  NumLoops : Nat := 4
  IndexWidth : Nat := 17
  PointerWidth : Nat := 17
  ShiftWidth : Nat := 3
  RptWidth : Nat := 4
  IndexCredits : Nat := 3
  IsectSlaveCredits : Nat := 8
  DataCredits : Nat := 4
  BytecntWidth : Nat := 3
  loops_pos : 1 ≤ NumLoops := by decide
  loops_le : NumLoops ≤ 4 := by decide
  index_pos : 1 ≤ IndexWidth := by decide
  index_le : IndexWidth ≤ 32 := by decide
  pointer_le : PointerWidth ≤ 32 := by decide
  bytecnt_le : BytecntWidth ≤ PointerWidth := by decide
  bytecnt_pos : 1 ≤ BytecntWidth := by decide
  rpt_le : RptWidth ≤ 32 := by decide
  credits_pos : 1 ≤ DataCredits := by decide

namespace Cfg

variable (C : Cfg)

/-- The bytes of a data word. -/
def WordBytes : Nat := 2 ^ C.BytecntWidth

def DataWidth : Nat := 8 * C.WordBytes

/-- `$bits(idx_size_t)`. -/
def SizeWidth : Nat := Nat.clog 2 (C.BytecntWidth + 1)

/-- A stream without indirection, of the default sizes. -/
def affine : Cfg := {}

end Cfg

/-! ## Configuration registers -/

/-- `cfg_status_upper_t`: the upper fields of the status register. -/
structure Status where
  done : Bool := true
  write : Bool := false
  dims : BitVec 2 := 0
  indir : Bool := false
  deriving DecidableEq, Repr

/-- The five upper bits of a status write. -/
def Status.ofWord (w : BitVec 32) : Status where
  done := w.getLsbD 31
  write := w.getLsbD 30
  dims := w.extractLsb' 28 2
  indir := w.getLsbD 27

/-- The registers a job is launched with, besides pointer and status.  The last
four exist with indirection only. -/
structure JobRegs (C : Cfg) where
  stride : Fin C.NumLoops → BitVec C.PointerWidth
  bound : Fin C.NumLoops → BitVec C.IndexWidth
  rep : BitVec C.RptWidth
  idxShift : BitVec C.ShiftWidth
  idxBase : BitVec C.PointerWidth
  idxSize : BitVec C.SizeWidth
  idxMerge : Bool

def JobRegs.zero (C : Cfg) : JobRegs C := ⟨fun _ => 0, fun _ => 0, 0, 0, 0, 0, false⟩

/-- `WordAddrMask`: the bits of a word-aligned address. -/
def wordAddrMask (C : Cfg) (w : BitVec 32) : BitVec 32 :=
  w &&& (BitVec.allOnes 32 <<< C.BytecntWidth)

/-- A write to configuration word `word`, as the registers see it: words 1, 2-5,
6-9, 10 and 11. -/
def JobRegs.write {C : Cfg} (r : JobRegs C) (word : BitVec 5) (w : BitVec 32) : JobRegs C where
  rep := if word = 1 then w.setWidth _ else r.rep
  bound k := if word.toNat = 2 + k.val then w.setWidth _ else r.bound k
  stride k := if word.toNat = 6 + k.val then (wordAddrMask C w).setWidth _ else r.stride k
  idxShift := if word = 10 then (w.extractLsb' 8 8).setWidth _ else r.idxShift
  idxSize := if word = 10 then (w.extractLsb' 0 8).setWidth _ else r.idxSize
  idxMerge := if word = 10 then w.getLsbD 16 else r.idxMerge
  idxBase := if word = 11 then (wordAddrMask C w).setWidth _ else r.idxBase

/-- The status register and its aliases are no job registers. -/
theorem JobRegs.write_status {C : Cfg} (r : JobRegs C) {word : BitVec 5}
    (status : word = 0 ∨ word.getLsbD 4 = true) (w : BitVec 32) : r.write word w = r := by
  have range : word.toNat = 0 ∨ 16 ≤ word.toNat := by
    rcases status with rfl | high
    · exact Or.inl rfl
    · have msb := BitVec.msb_eq_true_iff_two_mul_ge (x := word)
      rw [BitVec.msb_eq_getLsbD_last] at msb
      have half := msb.mp high
      exact Or.inr (by omega)
  have loops := C.loops_le
  have rep : ¬word = 1 := by rintro rfl; revert range; decide
  have cfg : ¬word = 10 := by rintro rfl; revert range; decide
  have base : ¬word = 11 := by rintro rfl; revert range; decide
  have bound : ∀ k : Fin C.NumLoops, ¬word.toNat = 2 + k.val := fun k => by omega
  have stride : ∀ k : Fin C.NumLoops, ¬word.toNat = 6 + k.val := fun k => by omega
  simp only [write, if_neg rep, if_neg cfg, if_neg base, bound, stride, if_false]

/-- A job as it is launched: pointer, status and registers. -/
structure Job (C : Cfg) where
  pointer : BitVec C.PointerWidth
  config : Status
  regs : JobRegs C

/-! ## The software interface

Each function of `ssr.h` is the list of writes `write_ssr_cfg` makes, in order;
`size_t` arithmetic wraps at 32 bits. -/

def SNRT_SSR_REG_REPEAT : Nat := 1
def SNRT_SSR_REG_BOUNDS : Nat := 2
def SNRT_SSR_REG_STRIDES : Nat := 6
def SNRT_SSR_REG_RPTR : Nat := 24
def SNRT_SSR_REG_WPTR : Nat := 28

/-- One `write_ssr_cfg`. -/
abbrev CfgWrite := BitVec 5 × BitVec 32

/-- The registers after a list of writes. -/
def JobRegs.writes {C : Cfg} (r : JobRegs C) (ws : List CfgWrite) : JobRegs C :=
  ws.foldl (fun r w => r.write w.1 w.2) r

theorem JobRegs.writes_append {C : Cfg} (r : JobRegs C) (ws rest : List CfgWrite) :
    r.writes (ws ++ rest) = (r.writes ws).writes rest := List.foldl_append

def writeSsrCfg (reg : Nat) (value : BitVec 32) : CfgWrite := (BitVec.ofNat 5 reg, value)

def snrt_ssr_loop_1d (b0 s0 : BitVec 32) : List CfgWrite :=
  let b0 := b0 - 1
  let a := 0
  [ writeSsrCfg (SNRT_SSR_REG_BOUNDS + 0) b0,
    writeSsrCfg (SNRT_SSR_REG_STRIDES + 0) (s0 - a) ]

def snrt_ssr_loop_2d (b0 b1 s0 s1 : BitVec 32) : List CfgWrite :=
  let b0 := b0 - 1
  let b1 := b1 - 1
  let a0 := 0
  let a1 := a0 + s0 * b0
  [ writeSsrCfg (SNRT_SSR_REG_BOUNDS + 0) b0,
    writeSsrCfg (SNRT_SSR_REG_BOUNDS + 1) b1,
    writeSsrCfg (SNRT_SSR_REG_STRIDES + 0) (s0 - a0),
    writeSsrCfg (SNRT_SSR_REG_STRIDES + 1) (s1 - a1) ]

def snrt_ssr_loop_3d (b0 b1 b2 s0 s1 s2 : BitVec 32) : List CfgWrite :=
  let b0 := b0 - 1
  let b1 := b1 - 1
  let b2 := b2 - 1
  let a0 := 0
  let a1 := a0 + s0 * b0
  let a2 := a1 + s1 * b1
  [ writeSsrCfg (SNRT_SSR_REG_BOUNDS + 0) b0,
    writeSsrCfg (SNRT_SSR_REG_BOUNDS + 1) b1,
    writeSsrCfg (SNRT_SSR_REG_BOUNDS + 2) b2,
    writeSsrCfg (SNRT_SSR_REG_STRIDES + 0) (s0 - a0),
    writeSsrCfg (SNRT_SSR_REG_STRIDES + 1) (s1 - a1),
    writeSsrCfg (SNRT_SSR_REG_STRIDES + 2) (s2 - a2) ]

def snrt_ssr_loop_4d (b0 b1 b2 b3 s0 s1 s2 s3 : BitVec 32) : List CfgWrite :=
  let b0 := b0 - 1
  let b1 := b1 - 1
  let b2 := b2 - 1
  let b3 := b3 - 1
  let a0 := 0
  let a1 := a0 + s0 * b0
  let a2 := a1 + s1 * b1
  let a3 := a2 + s2 * b2
  [ writeSsrCfg (SNRT_SSR_REG_BOUNDS + 0) b0,
    writeSsrCfg (SNRT_SSR_REG_BOUNDS + 1) b1,
    writeSsrCfg (SNRT_SSR_REG_BOUNDS + 2) b2,
    writeSsrCfg (SNRT_SSR_REG_BOUNDS + 3) b3,
    writeSsrCfg (SNRT_SSR_REG_STRIDES + 0) (s0 - a0),
    writeSsrCfg (SNRT_SSR_REG_STRIDES + 1) (s1 - a1),
    writeSsrCfg (SNRT_SSR_REG_STRIDES + 2) (s2 - a2),
    writeSsrCfg (SNRT_SSR_REG_STRIDES + 3) (s3 - a3) ]

def snrt_ssr_repeat (count : BitVec 32) : CfgWrite :=
  writeSsrCfg SNRT_SSR_REG_REPEAT (count - 1)

/-- `dim` is the number of dimensions less one (`SNRT_SSR_1D = 0`). -/
def snrt_ssr_read (dim : Fin 4) (ptr : BitVec 32) : CfgWrite :=
  writeSsrCfg (SNRT_SSR_REG_RPTR + dim.val) ptr

def snrt_ssr_write (dim : Fin 4) (ptr : BitVec 32) : CfgWrite :=
  writeSsrCfg (SNRT_SSR_REG_WPTR + dim.val) ptr

end SnitchCluster.Ssr
