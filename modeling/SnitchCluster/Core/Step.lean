/-
# Core.Step -- the cycle of the integer core

Write-back, the scoreboard and the next state: everything `Core.Wires` and
`Core.Csr` compute, registered.
-/
import SnitchCluster.Core.Csr

namespace SnitchCluster.Core

open Theory
open Instr

namespace State

variable {C : Cfg} {P : LsuParts C} (s : State P) (i : Input C)

/-! ## Write-back: the pipeline, then a load, then an accelerator -/

/-- `retire_i`. -/
def retireI : Bool := s.writeRd i && s.validInstr i && rd (C := C) i != 0

def lsuPvalid : Bool := s.lsu.pvalid i.dataRsp

/-- `retire_load`, which is also `lsu_pready`. -/
def retireLoad : Bool := !s.retireI i && s.lsuPvalid i

/-- `retire_acc`, which is also `acc_pready_o`. -/
def retireAcc : Bool := !s.retireI i && !s.lsuPvalid i && i.accPvalid

/-- `alu_writeback`. -/
def aluWriteback : BitVec 32 :=
  match (s.dec i).rdSelect with
  | .rdAlu => s.alu i
  | .rdConsecPC => s.consecPc i
  | .rdBypass =>
    match (s.dec i).rdBypass with
    | .zero => 0
    | .uimm => uimm i.instData
    | .csrRvalue => s.csrRvalue i

/-- The register write of the cycle. -/
def gprWrite : Option (BitVec C.RegWidth × BitVec 32) :=
  if s.retireI i then some (rd i, s.aluWriteback i)
  else if s.lsuPvalid i then some (s.lsu.ptag, (s.lsu.ldResult i.dataRsp).setWidth 32)
  else if i.accPvalid then some (i.accPid, i.accPdata)
  else none

/-- The register file after the cycle; register 0 stays 0. -/
def gprNext (r : BitVec C.RegWidth) : BitVec 32 :=
  if r = 0 then 0
  else match s.gprWrite i with
    | some (waddr, wdata) => if r = waddr then wdata else s.gpr r
    | none => s.gpr r

/-- `sb_d`. -/
def sbNext (r : BitVec C.RegWidth) : Bool :=
  if r = 0 then false
  else if s.retireAcc i && r == i.accPid then false
  else if ((s.dec i).isLoad || (s.dec i).accRegisterRd) && !s.stall i && !s.exception i &&
      r == rd i then true
  else if s.retireLoad i && r == s.lsu.ptag then false
  else s.sb r

/-- `wfi_d`. -/
def wfiNext : Bool :=
  if (s.dec i).wfi && s.validInstr i then true
  else if debugReq i || s.debugQ || s.anyInterruptPending i then false
  else s.wfi

/-- `debug_d`. -/
def debugNext : Bool :=
  if (s.dec i).leaveDebug then !s.validInstr i
  else if !s.debugQ && (debugReq i || (s.dcsrQ.ebreakm && BitPat.test EBREAK i.instData) ||
      s.dcsrQ.step) then s.validInstr i
  else s.debugQ

/-- One clock cycle. -/
def next : State P where
  pc := s.pcD i
  wfi := s.wfiNext i
  debug := s.debugNext i
  sb := s.sbNext i
  gpr := s.gprNext i
  csrs := s.csrNext i
  itlb := s.itlb.next (s.itlbPort i)
  dtlb := s.dtlb.next (s.dtlbPort i)
  lsu := s.lsu.next (s.lsuReq i) (s.caqReq i) i.dataRsp (s.retireLoad i)

end State

end SnitchCluster.Core
