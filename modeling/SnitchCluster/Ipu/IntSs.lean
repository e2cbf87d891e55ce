/-
# Ipu.IntSs -- the integer subsystem

The accelerator of `snitch_int_ss.sv` without its sequencer (`IPUSequencer = 0`, so
requests pass straight through): a decoder, a register file of its own, the arithmetic
unit, and one flag that marks the second cycle of a two-cycle operation.  The decoder
is one case statement; the handshake couples request, response and flag through one
stall.
-/
import SnitchCluster.Core.Instr
import SnitchCluster.Ipu.Alu
import SnitchCluster.Theory.Clocked

namespace SnitchCluster.Ipu

open Theory
open Theory.BitPat
open SnitchCluster.Core.Instr

/-- `op_select_e`. -/
inductive OpSelect
  | none | accBus | iImm | reg
  deriving DecidableEq, Repr

/-- `result_select_e`. -/
inductive ResultSelect
  | resNone | resAccBus
  deriving DecidableEq, Repr

/-- The assignments of a decoder arm over the defaults.  The third operand is never
selected. -/
structure Dec where
  aluOp : AluOp := .andn
  resultSelect : ResultSelect := .resNone
  opSelect0 : OpSelect := .none
  opSelect1 : OpSelect := .none
  illegal : Bool := false
  isMulticycle : Bool := false
  deriving DecidableEq, Repr

namespace Dec

/-- Both operands from the accelerator bus, the result back onto it. -/
def fromAcc (op : AluOp) : Dec :=
  { resultSelect := .resAccBus, opSelect0 := .accBus, opSelect1 := .accBus, aluOp := op }

def multicycle (d : Dec) : Dec := { d with isMulticycle := true }

/-- An operation on the register file, with an immediate or between registers. -/
def regImm (op : AluOp) : Dec := { opSelect0 := .reg, opSelect1 := .iImm, aluOp := op }

def regReg (op : AluOp) : Dec := { opSelect0 := .reg, opSelect1 := .reg, aluOp := op }

end Dec

open Dec

/-- The label the source writes for the reversed product: not the instruction, but the
operation code of the unit, zero-extended. -/
def aluClmulrLabel : BitPat 32 := ⟨0xffffffff, AluOp.clmulr.code.setWidth 32⟩

/-- `unique casez (acc_req_q.data_op)`. -/
def decoderArms : List (Arm 32 Dec) :=
  [ ([ANDN], fromAcc .andn),
    ([ORN], fromAcc .orn),
    ([XNOR], fromAcc .xnor),
    ([SLO, SLOI], fromAcc .slo),
    ([SRO, SROI], fromAcc .sro),
    ([ROL], fromAcc .rol),
    ([ROR, RORI], fromAcc .ror),
    ([SBCLR, SBCLRI], fromAcc .sbclr),
    ([SBSET, SBSETI], fromAcc .sbset),
    ([SBINV, SBINVI], fromAcc .sbinv),
    ([SBEXT, SBEXTI], fromAcc .sbext),
    ([GORC, GORCI], fromAcc .gorc),
    ([GREV, GREVI], fromAcc .grev),
    ([CLZ], fromAcc .clz),
    ([CTZ], fromAcc .ctz),
    ([PCNT], fromAcc .pcnt),
    ([SEXT_B], fromAcc .sextb),
    ([SEXT_H], fromAcc .sexth),
    ([CRC32_B], multicycle (fromAcc .crc32B)),
    ([CRC32_H], multicycle (fromAcc .crc32H)),
    ([CRC32_W], multicycle (fromAcc .crc32W)),
    ([CRC32C_B], multicycle (fromAcc .crc32cB)),
    ([CRC32C_H], multicycle (fromAcc .crc32cH)),
    ([CRC32C_W], multicycle (fromAcc .crc32cW)),
    ([CLMUL], multicycle (fromAcc .clmul)),
    ([aluClmulrLabel], multicycle (fromAcc .clmul)),
    ([CLMULH], multicycle (fromAcc .clmulh)),
    ([MIN], fromAcc .min),
    ([MAX], fromAcc .max),
    ([MINU], fromAcc .minu),
    ([MAXU], fromAcc .maxu),
    ([SHFL, SHFLI], fromAcc .shfl),
    ([UNSHFL, UNSHFLI], fromAcc .unshfl),
    -- neither operands nor an operation are selected
    ([BEXT], multicycle { resultSelect := .resAccBus }),
    ([BDEP], multicycle { resultSelect := .resAccBus }),
    ([PACK], fromAcc .pack),
    ([PACKU], fromAcc .packu),
    ([PACKH], fromAcc .packh),
    ([BFP], fromAcc .bfp),
    ([IMV_X_W], { opSelect0 := .reg, aluOp := .or, resultSelect := .resAccBus }),
    ([IMV_W_X], { opSelect0 := .accBus, aluOp := .or }),
    ([IADDI], regImm .add), ([ISLLI], regImm .sll), ([ISLTI], regImm .slt),
    ([ISLTIU], regImm .sltu), ([IXORI], regImm .xor), ([ISRLI], regImm .srl),
    ([ISRAI], regImm .sra), ([IORI], regImm .or), ([IANDI], regImm .and),
    ([IADD], regReg .add), ([ISUB], regReg .sub), ([ISLL], regReg .sll), ([ISLT], regReg .slt),
    ([ISLTU], regReg .sltu), ([IXOR], regReg .xor), ([ISRL], regReg .srl),
    ([ISRA], regReg .sra), ([IOR], regReg .or), ([IAND], regReg .and) ]

def decode (dataOp : BitVec 32) : Dec := firstMatch decoderArms { illegal := true } dataOp

/-! ## The circuit -/

/-- `acc_req_t`, as far as the subsystem reads it. -/
structure AccReq (Id : Type) where
  id : Id
  dataOp : BitVec 32
  dataArga : BitVec 64
  dataArgb : BitVec 64
  deriving DecidableEq, Repr

structure AccResp (Id : Type) where
  id : Id
  error : Bool
  data : BitVec 64
  deriving DecidableEq, Repr

structure IntSs where
  multicycleActive : Bool := false
  imdVal : BitVec 32 × BitVec 32 := (0, 0)
  /-- The register file, without a hard-wired zero. -/
  mem : BitVec 5 → BitVec 32 := fun _ => 0

structure Input (Id : Type) where
  accReq : AccReq Id
  accReqValid : Bool
  accRespReady : Bool
  deriving DecidableEq, Repr

namespace IntSs

variable {Id : Type} (s : IntSs) (i : Input Id)

def dec : Dec := decode i.accReq.dataOp

def rd : BitVec 5 := i.accReq.dataOp.extractLsb' 7 5

def rs1 : BitVec 5 := i.accReq.dataOp.extractLsb' 15 5

def rs2 : BitVec 5 := i.accReq.dataOp.extractLsb' 20 5

def iimm : BitVec 32 := (i.accReq.dataOp.extractLsb' 20 12).signExtend 32

/-- `alu_operand[0]`. -/
def aluOperand0 : BitVec 32 :=
  match (dec i).opSelect0 with
  | .none => 0
  | .reg => s.mem (rs1 i)
  | .accBus => i.accReq.dataArga.setWidth 32
  | .iImm => iimm i

/-- `alu_operand[1]`. -/
def aluOperand1 : BitVec 32 :=
  match (dec i).opSelect1 with
  | .none => 0
  | .reg => s.mem (rs2 i)
  | .accBus => i.accReq.dataArgb.setWidth 32
  | .iImm => iimm i

def aluResult : BitVec 32 :=
  Alu.result (dec i).aluOp (s.aluOperand0 i) (s.aluOperand1 i) (!s.multicycleActive) s.imdVal

/-- `acc_req_valid_q & (~is_multicycle | multicycle_active_q)` -/
def validInst : Bool := i.accReqValid && (!(dec i).isMulticycle || s.multicycleActive)

def accRespValid : Bool := s.validInst i && (dec i).resultSelect == .resAccBus

def stall : Bool := s.accRespValid i && !i.accRespReady

def accReqReady : Bool := !s.stall i

def accResp : AccResp Id :=
  { id := i.accReq.id, error := (dec i).illegal, data := (s.aluResult i).setWidth 64 }

def intWe : Bool := !s.stall i && s.validInst i && (dec i).resultSelect == .resNone

def next : IntSs where
  multicycleActive :=
    if s.stall i then s.multicycleActive else (dec i).isMulticycle && !s.multicycleActive
  -- the registers of the intermediate values are fed by their own outputs
  imdVal := s.imdVal
  mem := fun r => if s.intWe i && r == rd i then s.aluResult i else s.mem r

/-- What a cycle shows at the two ports. -/
structure Obs (Id : Type) where
  accepted : Option (AccReq Id)
  handed : Option (AccResp Id)
  deriving DecidableEq, Repr

def obs : Obs Id where
  accepted := if i.accReqValid && s.accReqReady i then some i.accReq else none
  handed := if s.accRespValid i && i.accRespReady then some (s.accResp i) else none

def machine (Id : Type) : Machine IntSs (Input Id) (Obs Id) where
  obs s i := s.obs i
  next s i := s.next i

end IntSs

end SnitchCluster.Ipu
