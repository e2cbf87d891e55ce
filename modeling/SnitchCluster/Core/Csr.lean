/-
# Core.Csr -- the next value of the control and status registers

One combinational process of `snitch.sv` in its own order: defaults and debug
bookkeeping, the addressed CSR write, the trap entry, the return from a trap.
Each stage is a function of the registers the stages before it leave behind, so
the last assignment wins here exactly as it does there.
-/
import SnitchCluster.Core.Wires

namespace SnitchCluster.Core

open Theory
open Instr

namespace State

variable {C : Cfg} {P : LsuParts C} (s : State P) (i : Input C)

/-! ## Defaults and debug bookkeeping -/

/-- The accumulated floating-point flags, the end of a barrier, and the program
counter and cause a debug entry leaves. -/
def csrBase : Csrs C :=
  let c := { s.csrs with
    fcsr := { s.csrs.fcsr with fflags := s.csrs.fcsr.fflags ||| i.fpuStatus }
    csrStall := s.csrs.csrStall && !i.barrier }
  if s.debugQ then c
  else if s.validInstr i && BitPat.test EBREAK i.instData then
    { c with dpc := s.pc, dcsr := { c.dcsr with cause := C.dmCauseBreakpoint } }
  else if debugReq i then
    { c with dpc := s.npc i, dcsr := { c.dcsr with cause := C.dmCauseRequest } }
  else if s.validInstr i && s.dcsrQ.step then
    { c with dpc := s.npc i, dcsr := { c.dcsr with cause := C.dmCauseSingleStep } }
  else c

/-! ## CSR writes -/

def fmodeOf (C : Cfg) (w : BitVec 2) : FmtMode :=
  if C.fmodeSrcMsb then ⟨w.getLsbD 1, w.getLsbD 0⟩ else ⟨w.getLsbD 0, w.getLsbD 1⟩

/-- A write to the register at `addr`.  An exception withdraws it, except from
the debug registers, the barrier and the multicast mask. -/
def csrWrite (exception : Bool) (addr : BitVec 12) (w : BitVec 32) (c : Csrs C) : Csrs C :=
  if addr = CSR_DCSR then
    if C.DebugSupport then
      { c with dcsr := { c.dcsr with ebreakm := w.getLsbD 15, step := w.getLsbD 2 } }
    else c
  else if addr = CSR_DPC then (if C.DebugSupport then { c with dpc := w } else c)
  else if addr = CSR_DSCRATCH0 then (if C.DebugSupport then { c with dscratch := w } else c)
  else if addr = CSR_BARRIER then { c with csrStall := true }
  else if addr = CSR_MCAST then { c with mcast := w }
  else if exception then c
  else if addr = CsrMseg then { c with mseg := w.setWidth _ }
  else if addr = CSR_MSTATUS then
    { c with mpp := w.extractLsb' 11 2, spp := w.getLsbD 8, ie := w.getLsbD 3,
             pie := w.getLsbD 7 }
  else if addr = CSR_MEPC then { c with epc := { c.epc with m := w } }
  else if addr = CSR_MIP then
    { c with seip := w.getLsbD SEI, stip := w.getLsbD STI, ssip := w.getLsbD SSI,
             scip := w.getLsbD SCI }
  else if addr = CSR_MIE then
    { c with eie := ⟨w.getLsbD MEI, w.getLsbD SEI⟩, tie := ⟨w.getLsbD MTI, w.getLsbD STI⟩,
             sie := ⟨w.getLsbD MSI, w.getLsbD SSI⟩, cie := ⟨w.getLsbD MCI, w.getLsbD SCI⟩,
             xie := { c.xie with m := w.getLsbD MXI } }
  else if addr = CSR_MCAUSE then
    { c with cause := w.extractLsb' 0 5, causeIrq := w.getLsbD 31 }
  else if addr = CSR_MTVEC then { c with tvec := w.extractLsb' 2 30 }
  else if addr = CSR_MSCRATCH then { c with scratch := { c.scratch with m := w } }
  -- the source writes the old value of `spp` back
  else if addr = CSR_SSTATUS then { c with spp := s.csrs.spp }
  else if addr = CSR_SSCRATCH then { c with scratch := { c.scratch with s := w } }
  else if addr = CSR_SEPC then { c with epc := { c.epc with s := w } }
  else if addr = CSR_SATP then
    { c with satp := ⟨C.VMSupport && w.getLsbD 31, w.extractLsb' 0 22⟩ }
  else if !C.FP_EN then c
  else if addr = CSR_FFLAGS then { c with fcsr := { c.fcsr with fflags := w.extractLsb' 0 5 } }
  else if addr = CSR_FRM then { c with fcsr := { c.fcsr with frm := w.extractLsb' 0 3 } }
  else if addr = CSR_FMODE then
    { c with fcsr := { c.fcsr with fmode := fmodeOf C (w.extractLsb' 0 2) } }
  else if addr = CSR_FCSR then
    { c with fcsr := ⟨fmodeOf C (w.extractLsb' 8 2), w.extractLsb' 5 3, w.extractLsb' 0 5⟩ }
  else c

/-- The registers after the CSR instruction of this cycle, if it is one. -/
def csrWritten : Csrs C :=
  if s.csrEn i && s.csrPrivOk i then
    s.csrWrite (s.exception i) (csrAddr i.instData) (s.alu i) (s.csrBase i)
  else s.csrBase i

/-- `barrier_o`: an access to the barrier register asks the cluster for a barrier. -/
def barrierO : Bool := s.csrEn i && s.csrPrivOk i && csrAddr i.instData == CSR_BARRIER

/-! ## Trap entry -/

def ecallCause (privLvl : PrivLvl) : BitVec 5 :=
  if privLvl = PrivLvlS then EnvCallSMode
  else if privLvl = PrivLvlU then EnvCallUMode
  else EnvCallMMode

/-- The highest pending interrupt; read only when one is pending. -/
def irqCause : BitVec 5 :=
  BitVec.ofNat 5 <|
    if s.meip i then MEI else if s.mtip i then MTI else if s.msip i then MSI
    else if s.mcip i then MCI else if s.mxip i then MXI else if s.seip then SEI
    else if s.stip then STI else if s.ssip then SSI else SCI

/-- The assignments to `cause_d` in the order of the source, each with its
condition.  A page fault of a floating-point access has none. -/
def causeWrites : List (Bool × BitVec 5) :=
  [ ((s.dec i).illegalInst || s.illegalCsr i, IllegalInstr),
    ((s.dec i).ecall, ecallCause s.csrs.privLvl),
    ((s.dec i).ebreak, Breakpoint),
    (s.dtlbTransValid i && s.dtlbPageFault i && (s.dec i).isStore, StorePageFault),
    (s.dtlbTransValid i && s.dtlbPageFault i && (s.dec i).isLoad, LoadPageFault),
    (s.itlbTransValid && s.itlbPageFault i, InstrPageFault),
    (s.instAddrMisaligned i, InstrAddrMisaligned),
    (s.ldAddrMisaligned i, LoadAddrMisaligned),
    (s.stAddrMisaligned i, StoreAddrMisaligned),
    (s.interrupt i, s.irqCause i) ]

/-- Some assignment to `cause_d` is made. -/
def causeWritten : Bool := (s.causeWrites i).any Prod.fst

/-- `cause_d`: the last assignment made. -/
def trapCause (old : BitVec 5) : BitVec 5 := lastWrite (s.causeWrites i) old

/-- `valid_instr` and `exception`: the guard of the trap entry. -/
def trapEntry : Bool := s.validInstr i && s.exception i

/-- The trap entry: cause, program counter, and the exception stack. -/
def trap (c : Csrs C) : Csrs C :=
  let c := if s.validInstr i then { c with cause := s.trapCause i c.cause } else c
  if s.trapEntry i then
    { c with epc := { c.epc with m := s.pc }, causeIrq := s.interrupt i, privLvl := PrivLvlM,
             mpp := s.csrs.privLvl, pie := s.csrs.ie, ie := false }
  else c

/-! ## Return from a trap

Matched on the instruction word alone, after the trap entry. -/

def mret (c : Csrs C) : Csrs C :=
  if s.validInstr i && BitPat.test MRET i.instData then
    { c with privLvl := s.csrs.mpp, ie := s.csrs.pie, pie := true, mpp := PrivLvlU }
  else c

def sret (c : Csrs C) : Csrs C :=
  if s.validInstr i && BitPat.test SRET i.instData then
    { c with privLvl := (BitVec.ofBool s.csrs.spp).setWidth 2, spp := false }
  else c

/-- The control and status registers after the cycle. -/
def csrNext : Csrs C := s.sret i (s.mret i (s.trap i (s.csrWritten i)))

end State

end SnitchCluster.Core
