/-
# Core.Package -- types, encodings and parameters of the integer core

The enumerations of `snitch_pkg`, `reqrsp_pkg` and the local ones of
`snitch.sv`, and the parameters of the core.  A privilege level stays a two-bit
word: `mstatus` can hold the encoding no level uses, and the access check is
bitwise.  The layouts and addresses of the debug and floating-point packages
are not part of the sources, so they are parameters too.
-/
import Mathlib.Data.Nat.Basic

namespace SnitchCluster.Core

/-! ## Privilege levels, trap causes -/

abbrev PrivLvl := BitVec 2

def PrivLvlM : PrivLvl := 3
def PrivLvlS : PrivLvl := 1
def PrivLvlU : PrivLvl := 0

def InstrAddrMisaligned : BitVec 5 := 0
def IllegalInstr : BitVec 5 := 2
def Breakpoint : BitVec 5 := 3
def LoadAddrMisaligned : BitVec 5 := 4
def StoreAddrMisaligned : BitVec 5 := 6
def EnvCallUMode : BitVec 5 := 8
def EnvCallSMode : BitVec 5 := 9
def EnvCallMMode : BitVec 5 := 11
def InstrPageFault : BitVec 5 := 12
def LoadPageFault : BitVec 5 := 13
def StorePageFault : BitVec 5 := 15

def MSI : Nat := 3
def MTI : Nat := 7
def MEI : Nat := 11
def MCI : Nat := 19
def MXI : Nat := 20
def SSI : Nat := 1
def STI : Nat := 5
def SEI : Nat := 9
def SCI : Nat := 17

/-- `interrupts_t`. -/
structure Interrupts where
  debug : Bool := false
  meip : Bool := false
  mtip : Bool := false
  msip : Bool := false
  mcip : Bool := false
  mxip : Bool := false

/-! ## Enumerations -/

inductive AccAddr where
  | fpSs | sharedMuldiv | dmaSs | intSs | ssrCfg
  deriving DecidableEq, Repr

inductive LsSize where
  | byte | halfWord | word | double
  deriving DecidableEq, Repr

inductive AmoOp where
  | amoNone | amoSwap | amoAdd | amoAnd | amoOr | amoXor | amoMax | amoMaxu | amoMin | amoMinu
  | amoLR | amoSC
  deriving DecidableEq, Repr

inductive AluOp where
  | add | sub | slt | sltu | sll | srl | sra | lXor | lOr | lAnd | lNAnd | eq | neq | ge | geu
  | bypassA
  deriving DecidableEq, Repr

inductive OpSelect where
  | none | reg | iImmediate | uImmediate | jImmediate | sImmediate | sfImmediate | pc | csr
  | csrImmmediate
  deriving DecidableEq, Repr

inductive NextPc where
  | consec | alu | exception | mRet | sRet | dRet
  deriving DecidableEq, Repr

inductive RdSelect where
  | rdAlu | rdConsecPC | rdBypass
  deriving DecidableEq, Repr

/-- What an arm of the decoder assigns to `rd_bypass`. -/
inductive RdBypass where
  | zero | uimm | csrRvalue
  deriving DecidableEq, Repr

/-- `fmt_mode_t`: the alternate-format bits of source and destination. -/
structure FmtMode where
  src : Bool := false
  dst : Bool := false
  deriving DecidableEq, Repr

/-- `dcsr_t`, less the fields that never change. -/
structure Dcsr where
  ebreakm : Bool := false
  step : Bool := false
  cause : BitVec 3 := 0
  deriving DecidableEq, Repr

/-- `PageShift`: the width of a page offset. -/
def PageShift : Nat := 12

/-! ## Parameters -/

/-- The parameters of module `snitch`, and of the packages it imports whose
sources are elsewhere (`dm*`, `fmodeSrcMsb`, `dcsrWord`). -/
structure Cfg where
  BootAddr : BitVec 32 := 0x1000
  AddrWidth : Nat := 48
  DataWidth : Nat := 64
  RVE : Bool := false
  Xdma : Bool := false
  Xssr : Bool := false
  Xcopift : Bool := false
  FP_EN : Bool := true
  RVF : Bool := false
  RVD : Bool := false
  XF16 : Bool := false
  XF16ALT : Bool := false
  XF8 : Bool := false
  XF8ALT : Bool := false
  XDivSqrt : Bool := false
  XFVEC : Bool := false
  XFDOTP : Bool := false
  XFAUX : Bool := false
  FLEN : Nat := 64
  VMSupport : Bool := true
  Xipu : Bool := true
  NumIntOutstandingLoads : Nat := 0
  NumIntOutstandingMem : Nat := 0
  NumDTLBEntries : Nat := 0
  NumITLBEntries : Nat := 0
  CaqDepth : Nat := 0
  CaqTagWidth : Nat := 0
  DebugSupport : Bool := true
  /-- `dm::HaltAddress` and `dm::ExceptionAddress`; the debug module sits at 0. -/
  dmHaltAddress : BitVec 32 := 0x800
  dmExceptionAddress : BitVec 32 := 0x810
  dmCauseBreakpoint : BitVec 3 := 1
  dmCauseRequest : BitVec 3 := 3
  dmCauseSingleStep : BitVec 3 := 4
  /-- The word `dcsr` reads as. -/
  dcsrWord : Dcsr → BitVec 32 := fun _ => 0
  /-- Whether `fmode.src` is the upper of the two mode bits. -/
  fmodeSrcMsb : Bool := false
  /-- The level of `caq_empty_o` where no queue drives it (`FP_EN = 0`). -/
  caqEmptyUndriven : Bool := true

namespace Cfg

variable (C : Cfg)

def RegWidth : Nat := if C.RVE then 4 else 5

/-- `PPNSize`: the width of a physical page number. -/
def PPNSize : Nat := C.AddrWidth - PageShift

/-- `NSX`: a non-standard floating-point format is present. -/
def NSX : Bool := C.XF16 || C.XF16ALT || C.XF8 || C.XFVEC

end Cfg

end SnitchCluster.Core
