/-
# Reqrsp.Package -- the two protocols and their atomics

The channels of the reqrsp interface and of AXI as far as the bridges between them
read them, and `reqrsp_pkg`: which operations are atomics and how they are written
in AXI.

The encodings of `axi_pkg` are a parameter, known by what the translation needs:
the operations are told apart, and their responses.
-/
import Mathlib.Algebra.Group.Nat.Defs
import Mathlib.Data.List.Nodup
import Mathlib.Data.Nat.Log

namespace SnitchCluster.Reqrsp

/-! ## Operations -/

/-- `amo_op_e`. -/
inductive AmoOp
  | AMONone | AMOSwap | AMOAdd | AMOAnd | AMOOr | AMOXor
  | AMOMax | AMOMaxu | AMOMin | AMOMinu | AMOLR | AMOSC
  deriving DecidableEq, Repr

/-- `is_amo`: a fetch-and-op. -/
def isAmo : AmoOp → Bool
  | .AMOSwap | .AMOAdd | .AMOAnd | .AMOOr | .AMOXor | .AMOMax | .AMOMaxu | .AMOMin | .AMOMinu => true
  | .AMONone | .AMOLR | .AMOSC => false

/-- `axi_pkg`: the encodings of atomics and responses, and the size of a transfer. -/
structure AxiPkg where
  ATOP_ATOMICSWAP : BitVec 6
  ATOP_ATOMICLOAD : BitVec 2
  ATOP_LITTLE_END : BitVec 1
  ATOP_ADD : BitVec 3
  ATOP_CLR : BitVec 3
  ATOP_EOR : BitVec 3
  ATOP_SET : BitVec 3
  ATOP_SMAX : BitVec 3
  ATOP_SMIN : BitVec 3
  ATOP_UMAX : BitVec 3
  ATOP_UMIN : BitVec 3
  RESP_OKAY : BitVec 2
  RESP_EXOKAY : BitVec 2
  numBytes : BitVec 3 → BitVec 16
  alignedAddr : ∀ {w : Nat}, BitVec w → BitVec 3 → BitVec w
  -- an operation is told by its three lower bits, and no load is a swap
  loads_distinct : [ATOP_ADD, ATOP_CLR, ATOP_EOR, ATOP_SET, ATOP_SMAX, ATOP_SMIN, ATOP_UMAX,
    ATOP_UMIN].Nodup
  load_ne_swap : ∀ op : BitVec 3, ATOP_ATOMICLOAD ++ ATOP_LITTLE_END ++ op ≠ ATOP_ATOMICSWAP
  -- the upper bit asks for read data
  load_reads : ATOP_ATOMICLOAD.getLsbD 1 = true
  swap_reads : ATOP_ATOMICSWAP.getLsbD 5 = true
  -- the upper bit of a response is the error, the lower one the exclusive success
  okay_eq : RESP_OKAY = 0
  exokay_eq : RESP_EXOKAY = 1
  numBytes_eq : ∀ size, (numBytes size).toNat = 2 ^ size.toNat
  alignedAddr_eq : ∀ {w : Nat} (a : BitVec w) size,
    alignedAddr a size = (a >>> size.toNat) <<< size.toNat

/-- The encodings of AMBA 5. -/
def AxiPkg.amba : AxiPkg where
  ATOP_ATOMICSWAP := 0b110000
  ATOP_ATOMICLOAD := 0b10
  ATOP_LITTLE_END := 0
  ATOP_ADD := 0
  ATOP_CLR := 1
  ATOP_EOR := 2
  ATOP_SET := 3
  ATOP_SMAX := 4
  ATOP_SMIN := 5
  ATOP_UMAX := 6
  ATOP_UMIN := 7
  RESP_OKAY := 0
  RESP_EXOKAY := 1
  numBytes size := BitVec.ofNat 16 (2 ^ size.toNat)
  alignedAddr a size := (a >>> size.toNat) <<< size.toNat
  loads_distinct := by decide
  load_ne_swap := by decide
  load_reads := by decide
  swap_reads := by decide
  okay_eq := rfl
  exokay_eq := rfl
  numBytes_eq := by decide
  alignedAddr_eq _ _ := rfl

namespace AxiPkg

variable (X : AxiPkg)

/-- A fetch-and-op in AXI. -/
def load (op : BitVec 3) : BitVec 6 := X.ATOP_ATOMICLOAD ++ X.ATOP_LITTLE_END ++ op

/-- `to_axi_amo`; the operand of `AMOAnd` is inverted on the data bus. -/
def toAxiAmo : AmoOp → BitVec 6
  | .AMOSwap => X.ATOP_ATOMICSWAP
  | .AMOAdd => X.load X.ATOP_ADD
  | .AMOAnd => X.load X.ATOP_CLR
  | .AMOOr => X.load X.ATOP_SET
  | .AMOXor => X.load X.ATOP_EOR
  | .AMOMax => X.load X.ATOP_SMAX
  | .AMOMaxu => X.load X.ATOP_UMAX
  | .AMOMin => X.load X.ATOP_SMIN
  | .AMOMinu => X.load X.ATOP_UMIN
  | .AMONone | .AMOLR | .AMOSC => 0

/-- `from_axi_amo`. -/
def fromAxiAmo (amo : BitVec 6) : AmoOp :=
  if amo = X.ATOP_ATOMICSWAP then .AMOSwap
  else if amo = X.load X.ATOP_ADD then .AMOAdd
  else if amo = X.load X.ATOP_CLR then .AMOAnd
  else if amo = X.load X.ATOP_SET then .AMOOr
  else if amo = X.load X.ATOP_EOR then .AMOXor
  else if amo = X.load X.ATOP_SMAX then .AMOMax
  else if amo = X.load X.ATOP_UMAX then .AMOMaxu
  else if amo = X.load X.ATOP_SMIN then .AMOMin
  else if amo = X.load X.ATOP_UMIN then .AMOMinu
  else .AMONone

variable {X}

theorem load_inj {op op' : BitVec 3} : X.load op = X.load op' ↔ op = op' := by
  constructor
  · intro same
    have low := congrArg (BitVec.extractLsb' 0 3) same
    rwa [load, load, BitVec.extractLsb'_append_eq_right, BitVec.extractLsb'_append_eq_right] at low
  · rintro rfl
    rfl

theorem load_getLsbD (op : BitVec 3) : (X.load op).getLsbD 5 = true := by
  have reads := X.load_reads
  rw [load, BitVec.getLsbD_append, BitVec.getLsbD_append]
  simpa using reads

theorem zero_ne_load (op : BitVec 3) : (0 : BitVec 6) ≠ X.load op := by
  intro same
  have bit := load_getLsbD (X := X) op
  rw [← same] at bit
  exact absurd bit (by decide)

theorem zero_ne_swap : (0 : BitVec 6) ≠ X.ATOP_ATOMICSWAP := by
  intro same
  have bit := X.swap_reads
  rw [← same] at bit
  exact absurd bit (by decide)

/-- **The translation of an atomic is undone.** -/
theorem fromAxiAmo_toAxiAmo (op : AmoOp) :
    X.fromAxiAmo (X.toAxiAmo op) = if isAmo op then op else .AMONone := by
  have distinct := X.loads_distinct
  have none : X.fromAxiAmo 0 = .AMONone := by
    rw [fromAxiAmo, if_neg zero_ne_swap]
    simp only [zero_ne_load, if_false]
  have noSwap : ∀ o, X.load o ≠ X.ATOP_ATOMICSWAP := X.load_ne_swap
  simp only [List.nodup_cons, List.mem_cons, List.not_mem_nil, or_false, not_or] at distinct
  cases op
  case AMONone => exact none
  case AMOLR => exact none
  case AMOSC => exact none
  case AMOSwap => exact if_pos rfl
  case AMOAdd => simp only [toAxiAmo, fromAxiAmo, noSwap, if_false, isAmo, if_true]
  all_goals
    simp only [toAxiAmo, fromAxiAmo, noSwap, if_false, load_inj, isAmo, if_true]
    grind

/-- An atomic asks for read data, any other operation does not. -/
theorem toAxiAmo_getLsbD (op : AmoOp) : (X.toAxiAmo op).getLsbD 5 = isAmo op := by
  cases op
  case AMOSwap => exact X.swap_reads
  case AMONone => exact BitVec.getLsbD_zero
  case AMOLR => exact BitVec.getLsbD_zero
  case AMOSC => exact BitVec.getLsbD_zero
  all_goals exact load_getLsbD _

end AxiPkg

/-! ## Channels -/

/-- `req_chan_t`. -/
@[ext]
structure ReqChan (AW DW : Nat) where
  addr : BitVec AW
  write : Bool
  amo : AmoOp
  data : BitVec DW
  strb : BitVec (DW / 8)
  size : BitVec 3
  deriving DecidableEq

/-- `rsp_chan_t`. -/
structure RspChan (DW : Nat) where
  data : BitVec DW
  error : Bool
  deriving DecidableEq

/-- The read address channel. -/
structure ArChan (AW IW : Nat) where
  addr : BitVec AW
  id : BitVec IW
  len : BitVec 8
  size : BitVec 3
  qos : BitVec 4
  lock : Bool
  deriving DecidableEq

/-- The write address channel. -/
structure AwChan (AW IW : Nat) extends ArChan AW IW where
  atop : BitVec 6
  deriving DecidableEq

/-- The write data channel. -/
structure WChan (DW : Nat) where
  data : BitVec DW
  strb : BitVec (DW / 8)
  last : Bool
  deriving DecidableEq

/-- The write response channel. -/
structure BChan (IW : Nat) where
  id : BitVec IW
  resp : BitVec 2
  deriving DecidableEq

/-- The read data channel. -/
structure RChan (IW DW : Nat) where
  id : BitVec IW
  data : BitVec DW
  resp : BitVec 2
  last : Bool
  deriving DecidableEq

end SnitchCluster.Reqrsp
