/-
# Core.State -- the registers and the inputs of the integer core

The registers of `snitch.sv` with their reset values, and what a cycle reads
from outside.  A register of the source with one entry per mode (`epc_q[M]`,
`epc_q[S]`) is a `PerMode`.
-/
import SnitchCluster.Core.Decoder
import SnitchCluster.Core.Tlb
import SnitchCluster.Core.Lsu

namespace SnitchCluster.Core

open Theory

/-- Indexed by `M` and `S`. -/
structure PerMode (α : Type) where
  m : α
  s : α
  deriving DecidableEq, Repr

/-- `satp_t`. -/
structure Satp where
  mode : Bool := false
  ppn : BitVec 22 := 0
  deriving DecidableEq, Repr

/-- `fcsr_t`. -/
structure Fcsr where
  fmode : FmtMode := {}
  frm : BitVec 3 := 0
  fflags : BitVec 5 := 0
  deriving DecidableEq, Repr

/-- The control and status registers. -/
structure Csrs (C : Cfg) where
  scratch : PerMode (BitVec 32) := ⟨0, 0⟩
  epc : PerMode (BitVec 32) := ⟨0, 0⟩
  tvec : BitVec 30 := 0
  cause : BitVec 5 := 0
  causeIrq : Bool := false
  spp : Bool := false
  mpp : PrivLvl := PrivLvlU
  ie : Bool := false
  pie : Bool := false
  eie : PerMode Bool := ⟨false, false⟩
  tie : PerMode Bool := ⟨false, false⟩
  sie : PerMode Bool := ⟨false, false⟩
  cie : PerMode Bool := ⟨false, false⟩
  xie : PerMode Bool := ⟨false, false⟩
  seip : Bool := false
  stip : Bool := false
  ssip : Bool := false
  scip : Bool := false
  privLvl : PrivLvl := PrivLvlM
  satp : Satp := {}
  mseg : BitVec (C.AddrWidth - 32) := 0
  fcsr : Fcsr := {}
  dcsr : Dcsr := {}
  dpc : BitVec 32 := 0
  dscratch : BitVec 32 := 0
  csrStall : Bool := false
  mcast : BitVec 32 := 0

variable {C : Cfg}

/-- The registers of the core. -/
structure State (P : LsuParts C) where
  pc : BitVec 32
  wfi : Bool
  debug : Bool
  sb : BitVec C.RegWidth → Bool
  gpr : BitVec C.RegWidth → BitVec 32
  csrs : Csrs C
  itlb : Tlb C.PPNSize C.NumITLBEntries
  dtlb : Tlb C.PPNSize C.NumDTLBEntries
  lsu : LsuState P

/-- The state after reset. -/
def State.reset (P : LsuParts C) : State P where
  pc := C.BootAddr
  wfi := false
  debug := false
  sb _ := false
  gpr _ := 0
  csrs := {}
  itlb := {}
  dtlb := {}
  lsu := .init P

/-- The answer of the page-table walker on one refill port. -/
structure PtwRsp (ppn : Nat) where
  ready : Bool := false
  pte : Pte ppn := {}
  is4mega : Bool := false

/-- The inputs of a cycle. -/
structure Input (C : Cfg) where
  hartId : BitVec 32 := 0
  irq : Interrupts := {}
  flushIReady : Bool := true
  instData : BitVec 32
  instReady : Bool := true
  accQready : Bool := true
  accPvalid : Bool := false
  accPid : BitVec C.RegWidth := 0
  accPdata : BitVec 32 := 0
  dataRsp : DataRsp C := ⟨true, false, 0⟩
  ptwI : PtwRsp C.PPNSize := {}
  ptwD : PtwRsp C.PPNSize := {}
  fpuStatus : BitVec 5 := 0
  caqPvalid : Bool := false
  barrier : Bool := false

/-- A configuration with room for one access of each kind, and its reference cells:
the concrete runs of the development use it. -/
def smallCfg : Cfg where
  RVF := true
  NumIntOutstandingLoads := 1
  NumIntOutstandingMem := 1
  NumITLBEntries := 1
  NumDTLBEntries := 1
  CaqDepth := 1

def smallParts : LsuParts smallCfg := LsuParts.ofList smallCfg

end SnitchCluster.Core
