/-
# Core.Wires -- the combinational signals of a cycle

Every signal of `snitch.sv` between the registers and their next values, each a
function of the state and the inputs under its own name, in an order in which it
only reads what stands above it.  The decoder contributes the requests of its
arm (`Core.Decoder`); the gates the source writes inside an arm stand here.
-/
import SnitchCluster.Core.Alu
import SnitchCluster.Core.State

namespace SnitchCluster.Core

open Theory
open Instr

/-! ## Fields of the instruction word -/

section Fields

variable (inst : BitVec 32)

def iimm : BitVec 32 := (inst.extractLsb' 20 12).signExtend 32
def uimm : BitVec 32 := inst.extractLsb' 12 20 ++ (0 : BitVec 12)
def jimm : BitVec 32 :=
  (inst.extractLsb' 31 1 ++ inst.extractLsb' 12 8 ++ inst.extractLsb' 20 1 ++
    inst.extractLsb' 21 10 ++ (0 : BitVec 1)).signExtend 32
def bimm : BitVec 32 :=
  (inst.extractLsb' 31 1 ++ inst.extractLsb' 7 1 ++ inst.extractLsb' 25 6 ++
    inst.extractLsb' 8 4 ++ (0 : BitVec 1)).signExtend 32
def simm : BitVec 32 := (inst.extractLsb' 25 7 ++ inst.extractLsb' 7 5).signExtend 32

def csrAddr : BitVec 12 := inst.extractLsb' 20 12

end Fields

namespace State

variable {C : Cfg} {P : LsuParts C} (s : State P) (i : Input C)

def rd : BitVec C.RegWidth := i.instData.extractLsb' 7 C.RegWidth
def rs1 : BitVec C.RegWidth := i.instData.extractLsb' 15 C.RegWidth
def rs2 : BitVec C.RegWidth := i.instData.extractLsb' 20 C.RegWidth

/-! ## Debug registers: tied to zero without debug support -/

def debugQ : Bool := C.DebugSupport && s.debug
def dcsrQ : Dcsr := if C.DebugSupport then s.csrs.dcsr else {}
def dpcQ : BitVec 32 := if C.DebugSupport then s.csrs.dpc else 0
def dscratchQ : BitVec 32 := if C.DebugSupport then s.csrs.dscratch else 0

/-- `DebugSupport && irq_i.debug` -/
def debugReq : Bool := C.DebugSupport && i.irq.debug

def dec : Dec := decode C s.csrs.privLvl s.debugQ s.csrs.fcsr.fmode i.instData

/-! ## Interrupts -/

def meip : Bool := i.irq.meip && s.csrs.eie.m
def mtip : Bool := i.irq.mtip && s.csrs.tie.m
def msip : Bool := i.irq.msip && s.csrs.sie.m
def mcip : Bool := i.irq.mcip && s.csrs.cie.m
def mxip : Bool := i.irq.mxip && s.csrs.xie.m
def seip : Bool := s.csrs.seip && s.csrs.eie.s
def stip : Bool := s.csrs.stip && s.csrs.tie.s
def ssip : Bool := s.csrs.ssip && s.csrs.sie.s
def scip : Bool := s.csrs.scip && s.csrs.cie.s

def interruptsEnabled : Bool :=
  (s.csrs.privLvl == PrivLvlM && s.csrs.ie) || s.csrs.privLvl != PrivLvlM

def anyInterruptPending : Bool :=
  s.meip i || s.mtip i || s.msip i || s.mcip i || s.mxip i || s.seip || s.stip || s.ssip || s.scip

def interrupt : Bool := s.interruptsEnabled && s.anyInterruptPending i

/-! ## Instruction fetch -/

/-- `trans_active`: translation is on, outside machine and debug mode. -/
def transActive : Bool := s.csrs.satp.mode && s.csrs.privLvl != PrivLvlM && !s.debugQ

def instValid : Bool := !s.wfi && !s.csrs.csrStall

def itlbVa : Va := s.pc.extractLsb' PageShift 20

def itlbValid : Bool := s.transActive && s.instValid

def itlbReady : Bool := C.VMSupport && s.itlb.ready s.itlbVa

def itlbTransValid : Bool := s.transActive && s.itlbValid && s.itlbReady

/-! ## Operands and the valid instruction -/

def opaReady : Bool := (s.dec i).opaSelect != .reg || !s.sb (rs1 i)

def opbReady : Bool :=
  ((s.dec i).opbSelect != .reg && (s.dec i).opbSelect != .sImmediate) || !s.sb (rs2 i)

def dstReady : Bool := !(s.dec i).usesRd || ((s.dec i).usesRd && !s.sb (rd i))

/-- `valid_instr`. -/
def validInstr : Bool :=
  i.instReady && s.instValid && (s.opaReady i && s.opbReady i) && s.dstReady i &&
    ((s.itlbValid && s.itlbReady) || !s.transActive)

/-! ## CSR reads -/

def csrEn : Bool := (s.dec i).csrEn && s.validInstr i

/-- The access check: the level covers the bits of the address. -/
def csrPrivOk : Bool :=
  s.csrs.privLvl &&& i.instData.extractLsb' 28 2 == i.instData.extractLsb' 28 2

/-- The registers that are missing with their extension. -/
def csrAbsent (addr : BitVec 12) : Bool :=
  (!C.DebugSupport && (addr == CSR_DCSR || addr == CSR_DPC || addr == CSR_DSCRATCH0)) ||
  (!C.FP_EN && (addr == CSR_FFLAGS || addr == CSR_FRM || addr == CSR_FMODE || addr == CSR_FCSR))

def bitAt (n : Nat) (b : Bool) : BitVec 32 := bit b <<< n

def fmodeWord (C : Cfg) (f : FmtMode) : BitVec 2 :=
  if C.fmodeSrcMsb then BitVec.ofBool f.src ++ BitVec.ofBool f.dst
  else BitVec.ofBool f.dst ++ BitVec.ofBool f.src

/-- The value of the addressed register; unknown addresses read zero. -/
def csrRead (addr : BitVec 12) : BitVec 32 :=
  let c := s.csrs
  if addr = CSR_MISA then
    bitAt 0 true ||| bitAt 3 (C.FP_EN && C.RVD) ||| bitAt 4 (C.FP_EN && C.RVE) |||
      bitAt 5 (C.FP_EN && C.RVF) ||| bitAt 8 true ||| bitAt 12 true |||
      bitAt 23 ((C.NSX && C.FP_EN) || C.Xdma || C.Xssr) ||| bitAt 30 true
  else if addr = CSR_MHARTID then i.hartId
  else if addr = CSR_DCSR then (if C.DebugSupport then C.dcsrWord s.dcsrQ else 0)
  else if addr = CSR_DPC then s.dpcQ
  else if addr = CSR_DSCRATCH0 then s.dscratchQ
  else if addr = CsrMseg then c.mseg.setWidth 32
  else if addr = CSR_MSTATUS then
    bitAt 31 C.FP_EN ||| bitAt 14 C.FP_EN ||| bitAt 13 C.FP_EN |||
      (c.mpp.setWidth 32 <<< 11) ||| bitAt 8 c.spp ||| bitAt 7 c.pie ||| bitAt 3 c.ie
  else if addr = CSR_MEPC then c.epc.m
  else if addr = CSR_MIP then
    bitAt MEI i.irq.meip ||| bitAt MTI i.irq.mtip ||| bitAt MSI i.irq.msip |||
      bitAt MCI i.irq.mcip ||| bitAt MXI i.irq.mxip ||| bitAt SEI c.seip |||
      bitAt STI c.stip ||| bitAt SSI c.ssip ||| bitAt SCI c.scip
  else if addr = CSR_MIE then
    bitAt MEI c.eie.m ||| bitAt MTI c.tie.m ||| bitAt MSI c.sie.m ||| bitAt MCI c.cie.m |||
      bitAt MXI c.xie.m ||| bitAt SEI c.eie.s ||| bitAt STI c.tie.s ||| bitAt SSI c.sie.s |||
      bitAt SCI c.cie.s
  else if addr = CSR_MCAUSE then c.cause.setWidth 32 ||| bitAt 31 c.causeIrq
  else if addr = CSR_MTVEC then c.tvec ++ (0 : BitVec 2)
  else if addr = CSR_MSCRATCH then c.scratch.m
  else if addr = CSR_SSTATUS then bitAt 8 c.spp
  else if addr = CSR_SSCRATCH then c.scratch.s
  else if addr = CSR_SEPC then c.epc.s
  -- the mode bit reads at 22 and writes at 31
  else if addr = CSR_SATP then (BitVec.ofBool c.satp.mode ++ c.satp.ppn).setWidth 32
  else if addr = CSR_FFLAGS then (if C.FP_EN then c.fcsr.fflags.setWidth 32 else 0)
  else if addr = CSR_FRM then (if C.FP_EN then c.fcsr.frm.setWidth 32 else 0)
  else if addr = CSR_FMODE then
    (if C.FP_EN then (fmodeWord C c.fcsr.fmode).setWidth 32 else 0)
  else if addr = CSR_FCSR then
    (if C.FP_EN then
      (fmodeWord C c.fcsr.fmode ++ c.fcsr.frm ++ c.fcsr.fflags).setWidth 32 else 0)
  else if addr = CSR_MCAST then c.mcast
  else 0

def csrRvalue : BitVec 32 :=
  if s.csrEn i && s.csrPrivOk i then s.csrRead i (csrAddr i.instData) else 0

def illegalCsr : Bool :=
  s.csrEn i && (!s.csrPrivOk i || csrAbsent (C := C) (csrAddr i.instData))

/-! ## Operand select, ALU -/

def opa : BitVec 32 :=
  match (s.dec i).opaSelect with
  | .reg => s.gpr (rs1 i)
  | .uImmediate => uimm i.instData
  | .jImmediate => jimm i.instData
  | .csrImmmediate => (rs1 (C := C) i).setWidth 32
  | _ => 0

def opb : BitVec 32 :=
  match (s.dec i).opbSelect with
  | .reg => s.gpr (rs2 i)
  | .iImmediate => iimm i.instData
  | .sfImmediate | .sImmediate => simm i.instData
  | .pc => s.pc
  | .csr => s.csrRvalue i
  | _ => 0

def alu : BitVec 32 := aluResult (s.dec i).aluOp (s.opa i) (s.opb i)

/-- `consec_pc`: the next address, or the target of a taken branch. -/
def consecPc : BitVec 32 :=
  s.pc + if (s.dec i).isBranch && (s.alu i).getLsbD 0 then bimm i.instData else 4

/-! ## Misaligned addresses -/

def lsMisaligned : Bool :=
  match (s.dec i).lsSize with
  | .byte => false
  | .halfWord => (s.alu i).extractLsb' 0 1 != 0
  | .word => (s.alu i).extractLsb' 0 2 != 0
  | .double => (s.alu i).extractLsb' 0 3 != 0

def stAddrMisaligned : Bool := s.lsMisaligned i && ((s.dec i).isStore || (s.dec i).isFpStore)

def ldAddrMisaligned : Bool := s.lsMisaligned i && ((s.dec i).isLoad || (s.dec i).isFpLoad)

def instAddrMisaligned : Bool :=
  BitPat.inside i.instData jumps && (s.consecPc i).extractLsb' 0 2 != 0

/-! ## Data translation -/

/-- `lsu_tlb_qvalid`: a valid, aligned integer access. -/
def lsuTlbQvalid : Bool :=
  s.validInstr i && ((s.dec i).isLoad || (s.dec i).isStore) &&
    !(s.ldAddrMisaligned i || s.stAddrMisaligned i)

def dtlbValid : Bool :=
  (s.lsuTlbQvalid i && s.transActive) ||
    (((s.dec i).isFpLoad || (s.dec i).isFpStore) && s.transActive)

def dtlbVa : Va := (s.alu i).extractLsb' PageShift 20

def dtlbReady : Bool := C.VMSupport && s.dtlb.ready (s.dtlbVa i)

def dtlbTransValid : Bool := s.transActive && s.dtlbValid i && s.dtlbReady i

def transReady : Bool := (s.transActive && s.dtlbReady i) || !s.transActive

/-- `tlb_flush`. -/
def tlbFlush : Bool := (s.dec i).tlbFlush && s.validInstr i

def itlbPort : TlbPort C.PPNSize where
  flush := s.tlbFlush i
  privLvl := s.csrs.privLvl
  valid := s.itlbValid
  va := s.itlbVa
  read := false
  write := false
  execute := true
  refillReady := i.ptwI.ready
  refillPte := i.ptwI.pte
  refill4mega := i.ptwI.is4mega

def dtlbPort : TlbPort C.PPNSize where
  flush := s.tlbFlush i
  privLvl := s.csrs.privLvl
  valid := s.dtlbValid i
  va := s.dtlbVa i
  read := (s.dec i).isLoad
  write := (s.dec i).isStore
  execute := false
  refillReady := i.ptwD.ready
  refillPte := i.ptwD.pte
  refill4mega := i.ptwD.is4mega

def itlbPageFault : Bool := C.VMSupport && s.itlb.pageFault (s.itlbPort i)

def dtlbPageFault : Bool := C.VMSupport && s.dtlb.pageFault (s.dtlbPort i)

/-- The page number of the access: the segment register extends untranslated
addresses. -/
def lsPpn : BitVec C.PPNSize :=
  if s.transActive then
    if C.VMSupport then s.dtlb.pa (s.dtlbVa i) else (s.dtlbVa i).setWidth C.PPNSize
  else (s.csrs.mseg ++ (s.alu i).extractLsb' PageShift 20).setWidth C.PPNSize

def lsPaddr : BitVec C.AddrWidth :=
  (s.lsPpn i ++ (s.alu i).extractLsb' 0 PageShift).setWidth C.AddrWidth

/-! ## Exceptions -/

/-- `exception`. -/
def exception : Bool :=
  (s.dec i).illegalInst || (s.dec i).ecall || (s.dec i).ebreak || s.interrupt i ||
    s.instAddrMisaligned i || s.ldAddrMisaligned i || s.stAddrMisaligned i || s.illegalCsr i ||
    (s.dtlbPageFault i && s.dtlbTransValid i) || (s.itlbPageFault i && s.itlbTransValid)

/-! The sanitised outputs of the decoder: an exception withdraws the register
write and the offload, and redirects the program counter. -/

def writeRd : Bool := (s.dec i).writeRd && !s.exception i

def nextPc : NextPc := if s.exception i then .exception else (s.dec i).nextPc

/-! ## Memory requests -/

def lsuReq : LsuReq C where
  qtag := rd i
  qwrite := (s.dec i).isStore
  qsigned := (s.dec i).isSigned
  qaddr := s.lsPaddr i
  qdata := (s.gpr (rs2 i)).setWidth C.DataWidth
  qsize := (s.dec i).lsSize
  qamo := (s.dec i).lsAmo
  qmcast := s.csrs.mcast.setWidth C.AddrWidth
  qvalid := s.lsuTlbQvalid i && s.transReady i

/-- `data_req_o.q_valid`. -/
def dataQvalid : Bool := s.lsu.qValid (s.lsuReq i)

def lsuQready : Bool := s.lsu.qready (s.lsuReq i) i.dataRsp

def lsuTlbQready : Bool := s.lsuQready i && s.transReady i

def caqEna : Bool := (s.dec i).isFpLoad || (s.dec i).isFpStore

def caqQready : Bool := s.lsu.caqQready i.caqPvalid

/-- `acc_qvalid_o`, sanitised. -/
def accQvalid : Bool :=
  (s.dec i).accQvalid && s.validInstr i &&
    (!(s.dec i).accQgated || (s.transReady i && s.caqQready i)) && !s.exception i

/-! ## Stalls -/

/-- `flush_i_valid_o`. -/
def flushIValid : Bool := (s.dec i).fenceI && s.validInstr i

def fenceStall : Bool :=
  ((s.dec i).fence && s.validInstr i && !(s.lsu.empty && s.lsu.caqEmpty)) ||
    (s.flushIValid i && !i.flushIReady)

def lsuStall : Bool := s.lsuTlbQvalid i && !s.lsuTlbQready i

def accStall : Bool := (s.accQvalid i && !i.accQready) || (s.caqEna i && !s.caqQready i)

def nonaccStall : Bool := !s.validInstr i || s.lsuStall i || s.fenceStall i

def stall : Bool := s.nonaccStall i || s.accStall i

/-- `caq_qvalid`: the snoop push follows the accelerator's ready. -/
def caqQvalid : Bool := s.caqEna i && i.accQready && !s.nonaccStall i

def caqReq : CaqReq C where
  qaddr := s.lsPaddr i
  qwrite := (s.dec i).isFpStore
  qvalid := s.caqQvalid i
  pvalid := i.caqPvalid

/-! ## The program counter -/

/-- The core moves on in this cycle. -/
def advance : Bool := !s.stall i && !s.wfi && !s.csrs.csrStall

/-- The trap vector. -/
def trapVector : BitVec 32 := s.csrs.tvec ++ (0 : BitVec 2)

/-- `npc`: the next program counter outside debug mode. -/
def npc : BitVec 32 :=
  if s.advance i then
    match s.nextPc i with
    | .consec => s.consecPc i
    | .alu => if (s.dec i).zeroLsb then s.alu i &&& ~~~1 else s.alu i
    | .exception => s.trapVector
    | .mRet => s.csrs.epc.m
    | .sRet => s.csrs.epc.s
    | .dRet => s.dpcQ
  else s.pc

/-- `pc_d`. -/
def pcD : BitVec 32 :=
  if s.advance i then
    if !s.debugQ && (debugReq i || s.dcsrQ.step) then C.dmHaltAddress
    else if s.debugQ && s.nextPc i == .exception then
      if BitPat.test EBREAK i.instData then C.dmHaltAddress else C.dmExceptionAddress
    else s.npc i
  else s.pc

end State

end SnitchCluster.Core
