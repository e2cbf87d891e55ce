/-
# Core.Decoder -- the instruction decoder

The decoder of `snitch.sv` as one case statement over instruction words.  It is
a function of the word, the parameters and three registers (privilege level,
debug mode, FPU format mode).

The source interleaves the decoder with the pipeline: an arm writes
`acc_qvalid_o = valid_instr`, or `csr_en = valid_instr`, while `valid_instr`
itself depends on the operand selections of the same arm.  Here an arm only says
*that* it makes such a request (`accQvalid`, `csrEn`, `tlbFlush`, ...); the gate
with `valid_instr` and with the handshakes is applied where the request is
built, in `Core.Wires`.
-/
import SnitchCluster.Core.Package
import SnitchCluster.Core.Instr

namespace SnitchCluster.Core

open Theory
open Theory.BitPat
open Instr

/-- The assignments of one decoder arm over the defaults of the block. -/
structure Dec where
  illegalInst : Bool := false
  ecall : Bool := false
  ebreak : Bool := false
  aluOp : AluOp := .add
  opaSelect : OpSelect := .none
  opbSelect : OpSelect := .none
  nextPc : NextPc := .consec
  rdSelect : RdSelect := .rdAlu
  writeRd : Bool := true
  usesRd : Bool := true
  rdBypass : RdBypass := .zero
  zeroLsb : Bool := false
  isBranch : Bool := false
  isLoad : Bool := false
  isStore : Bool := false
  isFpLoad : Bool := false
  isFpStore : Bool := false
  isSigned : Bool := false
  lsSize : LsSize := .byte
  lsAmo : AmoOp := .amoNone
  accAddr : AccAddr := .fpSs
  accRegisterRd : Bool := false
  /-- `acc_qvalid_o = valid_instr`, -/
  accQvalid : Bool := false
  /-- ... `& trans_ready & caq_qready` for a floating-point access. -/
  accQgated : Bool := false
  /-- `csr_en = valid_instr` -/
  csrEn : Bool := false
  /-- `fence_stall = valid_instr && !(lsu_empty && caq_empty)` -/
  fence : Bool := false
  /-- `flush_i_valid_o = valid_instr; fence_stall = flush_i_valid_o & ~flush_i_ready_i` -/
  fenceI : Bool := false
  /-- `tlb_flush = valid_instr` -/
  tlbFlush : Bool := false
  /-- `debug_d = ~valid_instr` -/
  leaveDebug : Bool := false
  /-- `if (valid_instr) wfi_d = 1` -/
  wfi : Bool := false
  deriving DecidableEq, Repr

namespace Dec

/-- The arm accesses memory, through the core's own unit or the FPU's. -/
def memory (d : Dec) : Bool := d.isLoad || d.isStore || d.isFpLoad || d.isFpStore

/-- `illegal_inst = 1'b1` and nothing else. -/
def illegal : Dec := { illegalInst := true }

/-- The arm hands the instruction to an accelerator if the configuration has it. -/
def offload (present : Bool) (d : Dec) : Dec :=
  if present then { d with writeRd := false, accQvalid := true } else illegal

/-- The accelerator answers into an integer register. -/
def answered (d : Dec) : Dec := { d with usesRd := true, accRegisterRd := true }

/-- A floating-point load or store: offloaded, and snooped by the CAQ. -/
def fpAccess (present : Bool) (d : Dec) : Dec :=
  if present then
    { d with writeRd := false, accQvalid := true, accQgated := true, opaSelect := .reg }
  else illegal

/-- An atomic: a signed word-sized load with an operation. -/
def amo (op : AmoOp) : Dec :=
  { aluOp := .bypassA, writeRd := false, usesRd := true, isLoad := true, isSigned := true,
    lsSize := .word, lsAmo := op, opaSelect := .reg, opbSelect := .reg }

def branch (op : AluOp) : Dec :=
  { isBranch := true, writeRd := false, aluOp := op, opaSelect := .reg, opbSelect := .reg }

def store (size : LsSize) : Dec :=
  { writeRd := false, isStore := true, lsSize := size, opaSelect := .reg,
    opbSelect := .sImmediate }

def load (signed : Bool) (size : LsSize) : Dec :=
  { writeRd := false, usesRd := true, isLoad := true, isSigned := signed, lsSize := size,
    opaSelect := .reg, opbSelect := .iImmediate }

/-- A CSR access: the old value goes to `rd`, the ALU computes the new one. -/
def csr (op : AluOp) (opa opb : OpSelect) : Dec :=
  { aluOp := op, opaSelect := opa, opbSelect := opb, rdSelect := .rdBypass,
    rdBypass := .csrRvalue, csrEn := true }

end Dec

section Arms

variable (C : Cfg) (privLvl : PrivLvl) (debug : Bool) (fmode : FmtMode) (inst : BitVec 32)

open Dec

abbrev DecArm := Arm 32 Dec

/-- Integer computations, jumps and branches. -/
def baseArms : List DecArm :=
  [ ([ADD], { opaSelect := .reg, opbSelect := .reg }),
    ([ADDI], { opaSelect := .reg, opbSelect := .iImmediate }),
    ([SUB], { aluOp := .sub, opaSelect := .reg, opbSelect := .reg }),
    ([XOR], { opaSelect := .reg, opbSelect := .reg, aluOp := .lXor }),
    ([XORI], { aluOp := .lXor, opaSelect := .reg, opbSelect := .iImmediate }),
    ([OR], { opaSelect := .reg, opbSelect := .reg, aluOp := .lOr }),
    ([ORI], { aluOp := .lOr, opaSelect := .reg, opbSelect := .iImmediate }),
    ([AND], { aluOp := .lAnd, opaSelect := .reg, opbSelect := .reg }),
    ([ANDI], { aluOp := .lAnd, opaSelect := .reg, opbSelect := .iImmediate }),
    ([SLT], { aluOp := .slt, opaSelect := .reg, opbSelect := .reg }),
    ([SLTI], { aluOp := .slt, opaSelect := .reg, opbSelect := .iImmediate }),
    ([SLTU], { aluOp := .sltu, opaSelect := .reg, opbSelect := .reg }),
    ([SLTIU], { aluOp := .sltu, opaSelect := .reg, opbSelect := .iImmediate }),
    ([SLL], { aluOp := .sll, opaSelect := .reg, opbSelect := .reg }),
    ([SRL], { aluOp := .srl, opaSelect := .reg, opbSelect := .reg }),
    ([SRA], { aluOp := .sra, opaSelect := .reg, opbSelect := .reg }),
    ([SLLI], { aluOp := .sll, opaSelect := .reg, opbSelect := .iImmediate }),
    ([SRLI], { aluOp := .srl, opaSelect := .reg, opbSelect := .iImmediate }),
    ([SRAI], { aluOp := .sra, opaSelect := .reg, opbSelect := .iImmediate }),
    ([LUI], { rdSelect := .rdBypass, rdBypass := .uimm }),
    ([AUIPC], { opaSelect := .uImmediate, opbSelect := .pc }),
    ([JAL], { rdSelect := .rdConsecPC, opaSelect := .jImmediate, opbSelect := .pc,
              nextPc := .alu }),
    ([JALR], { rdSelect := .rdConsecPC, opaSelect := .reg, opbSelect := .iImmediate,
               nextPc := .alu, zeroLsb := true }),
    -- the ALU does the comparisons
    ([BEQ], branch .eq), ([BNE], branch .neq), ([BLT], branch .slt), ([BLTU], branch .sltu),
    ([BGE], branch .ge), ([BGEU], branch .geu),
    ([SB], store .byte), ([SH], store .halfWord), ([SW], store .word),
    ([LB], load true .byte), ([LH], load true .halfWord), ([LW], load true .word),
    ([LBU], load false .byte), ([LHU], load false .halfWord) ]

/-- CSR accesses.  The enables of the scalar chaining and stream registers are
offloaded to the FP subsystem instead. -/
def csrArms : List DecArm :=
  [ ([CSRRW], csr .add .reg .none),
    ([CSRRWI], csr .add .csrImmmediate .none),
    ([CSRRS], if inst.extractLsb' 20 12 != CSR_SC then csr .lOr .reg .csr
              else offload true { opaSelect := .reg }),
    ([CSRRSI], if inst.extractLsb' 20 12 != CSR_SSR then csr .lOr .csrImmmediate .csr
               else offload true {}),
    ([CSRRC], if inst.extractLsb' 20 12 != CSR_SC then csr .lNAnd .reg .csr
              else offload true { opaSelect := .reg }),
    ([CSRRCI], if inst.extractLsb' 20 12 != CSR_SSR then csr .lNAnd .csrImmmediate .csr
               else offload true {}) ]

/-- Environment calls and returns, fences, wait for interrupt. -/
def systemArms : List DecArm :=
  [ ([ECALL], { ecall := true }),
    ([EBREAK], { ebreak := true }),
    ([SRET], if privLvl == PrivLvlM || privLvl == PrivLvlS
             then { writeRd := false, nextPc := .sRet }
             else { writeRd := false, illegalInst := true }),
    ([MRET], if privLvl == PrivLvlM then { writeRd := false, nextPc := .mRet }
             else { writeRd := false, illegalInst := true }),
    ([DRET], if !debug then illegal
             else { nextPc := .dRet, usesRd := false, leaveDebug := true }),
    ([FENCE], { fence := true, writeRd := false }),
    ([FENCE_I], { fenceI := true }),
    ([SFENCE_VMA], if privLvl == PrivLvlU then illegal else { tlbFlush := true }),
    ([WFI], if privLvl == PrivLvlU then illegal else { wfi := !debug }) ]

def atomicArms : List DecArm :=
  [ ([AMOADD_W], amo .amoAdd), ([AMOXOR_W], amo .amoXor), ([AMOOR_W], amo .amoOr),
    ([AMOAND_W], amo .amoAnd), ([AMOMIN_W], amo .amoMin), ([AMOMAX_W], amo .amoMax),
    ([AMOMINU_W], amo .amoMinu), ([AMOMAXU_W], amo .amoMaxu), ([AMOSWAP_W], amo .amoSwap),
    ([LR_W], amo .amoLR), ([SC_W], amo .amoSC) ]

/-- Multiplications, and the bit-manipulation and packed instructions of the
integer subsystem. -/
def intSsArms : List DecArm :=
  [ ([MUL, MULH, MULHSU, MULHU, DIV, DIVU, REM, REMU, MULW, DIVW, DIVUW, REMW, REMUW],
      offload true (answered { opaSelect := .reg, opbSelect := .reg, accAddr := .sharedMuldiv })),
    ([ANDN, ORN, XNOR, SLO, SRO, ROL, ROR, SBCLR, SBSET, SBINV, SBEXT, GORC, GREV, CLZ, CTZ,
      PCNT, SEXT_B, SEXT_H, CRC32_B, CRC32_H, CRC32_W, CRC32C_B, CRC32C_H, CRC32C_W, CLMUL,
      CLMULR, CLMULH, MIN, MAX, MINU, MAXU, SHFL, UNSHFL, BEXT, BDEP, PACK, PACKU, PACKH, BFP],
      offload true (answered { opaSelect := .reg, opbSelect := .reg, accAddr := .intSs })),
    ([SLOI, SROI, RORI, SBCLRI, SBSETI, SBINVI, SBEXTI, GORCI, GREVI, SHFLI, UNSHFLI],
      offload true (answered { opaSelect := .reg, opbSelect := .iImmediate,
                               accAddr := .intSs })),
    ([IADDI, ISLLI, ISLTI, ISLTIU, IXORI, ISRLI, ISRAI, IORI, IANDI, IADD, ISUB, ISLL, ISLT,
      ISLTU, IXOR, ISRL, ISRA, IOR, IAND, IMADD, IMSUB, INMSUB, INMADD, IMUL, IMULH, IMULHSU,
      IMULHU, IANDN, IORN, IXNOR, ISLO, ISRO, IROL, IROR, ISBCLR, ISBSET, ISBINV, ISBEXT, IGORC,
      IGREV, ISLOI, ISROI, IRORI, ISBCLRI, ISBSETI, ISBINVI, ISBEXTI, IGORCI, IGREVI, ICLZ,
      ICTZ, IPCNT, ISEXT_B, ISEXT_H, ICRC32_B, ICRC32_H, ICRC32_W, ICRC32C_B, ICRC32C_H,
      ICRC32C_W, ICLMUL, ICLMULR, ICLMULH, IMIN, IMAX, IMINU, IMAXU, ISHFL, IUNSHFL, IBEXT,
      IBDEP, IPACK, IPACKU, IPACKH, IBFP],
      offload C.Xipu { accAddr := .intSs }),
    ([IMV_X_W], offload C.Xipu (answered { accAddr := .intSs })),
    ([IMV_W_X], offload C.Xipu { accAddr := .intSs, opaSelect := .reg }),
    ([IREP], offload C.Xipu { accAddr := .intSs, opaSelect := .reg }) ]

/-- The two formats of a width: the standard one, or the alternate one when the
mode bit selects it. -/
def formatOf (std alt mode : Bool) : Bool := (std && !mode) || (alt && mode)

/-- `!(inst_data_i inside {patterns}) || XDivSqrt` -/
def divSqrtOk (patterns : List (BitPat 32)) : Bool := !inside inst patterns || C.XDivSqrt

/-- Floating-point arithmetic and conversions between formats. -/
def fpArms : List DecArm :=
  [ ([FADD_S, FSUB_S, FMUL_S, FDIV_S, FSGNJ_S, FSGNJN_S, FSGNJX_S, FMIN_S, FMAX_S, FSQRT_S,
      FMADD_S, FMSUB_S, FNMSUB_S, FNMADD_S],
      offload (C.FP_EN && C.RVF && divSqrtOk C inst [FDIV_S, FSQRT_S]) {}),
    ([VFADD_S, VFADD_R_S, VFSUB_S, VFSUB_R_S, VFMUL_S, VFMUL_R_S, VFDIV_S, VFDIV_R_S, VFMIN_S,
      VFMIN_R_S, VFMAX_S, VFMAX_R_S, VFSQRT_S, VFMAC_S, VFMAC_R_S, VFMRE_S, VFMRE_R_S, VFSGNJ_S,
      VFSGNJ_R_S, VFSGNJN_S, VFSGNJN_R_S, VFSGNJX_S, VFSGNJX_R_S, VFCPKA_S_S, VFCPKA_S_D],
      offload (C.FP_EN && C.XFVEC && C.RVF && C.RVD &&
        divSqrtOk C inst [VFDIV_S, VFDIV_R_S, VFSQRT_S]) {}),
    ([VFSUM_S, VFNSUM_S],
      offload (C.FP_EN && C.XFVEC && decide (C.FLEN ≥ 64) && C.XFDOTP && C.RVF) {}),
    ([FADD_D, FSUB_D, FMUL_D, FDIV_D, FSGNJ_D, FSGNJN_D, FSGNJX_D, FMIN_D, FMAX_D, FSQRT_D,
      FMADD_D, FMSUB_D, FNMSUB_D, FNMADD_D],
      offload (C.FP_EN && C.RVD && divSqrtOk C inst [FDIV_D, FSQRT_D]) {}),
    ([FCVT_S_D, FCVT_D_S], offload (C.FP_EN && C.RVF && C.RVD) {}),
    -- the alternate format excludes the vectorial divisions, not the scalar ones
    ([FADD_H, FSUB_H, FMUL_H, FDIV_H, FSQRT_H, FMADD_H, FMSUB_H, FNMSUB_H, FNMADD_H, FSGNJ_H,
      FSGNJN_H, FSGNJX_H, FMIN_H, FMAX_H],
      offload ((C.FP_EN && C.XF16 && !fmode.dst && divSqrtOk C inst [FDIV_H, FSQRT_H]) ||
        (C.FP_EN && C.XF16ALT && fmode.dst &&
          divSqrtOk C inst [VFDIV_H, VFDIV_R_H, VFSQRT_H])) {}),
    ([FMACEX_S_H, FMULEX_S_H], offload (C.FP_EN && C.RVF && C.XF16 && C.XFAUX) {}),
    ([FCVT_S_H], offload (C.FP_EN && C.RVF && formatOf C.XF16 C.XF16ALT fmode.src) {}),
    ([FCVT_H_S], offload (C.FP_EN && C.RVF && formatOf C.XF16 C.XF16ALT fmode.dst) {}),
    ([FCVT_D_H], offload (C.FP_EN && C.RVD && formatOf C.XF16 C.XF16ALT fmode.src) {}),
    ([FCVT_H_D], offload (C.FP_EN && C.RVD && formatOf C.XF16 C.XF16ALT fmode.dst) {}),
    ([VFADD_H, VFADD_R_H, VFSUB_H, VFSUB_R_H, VFMUL_H, VFMUL_R_H, VFDIV_H, VFDIV_R_H, VFMIN_H,
      VFMIN_R_H, VFMAX_H, VFMAX_R_H, VFSQRT_H, VFMAC_H, VFMAC_R_H, VFMRE_H, VFMRE_R_H, VFSGNJ_H,
      VFSGNJ_R_H, VFSGNJN_H, VFSGNJN_R_H, VFSGNJX_H, VFSGNJX_R_H],
      offload (C.FP_EN && C.XFVEC && decide (C.FLEN ≥ 32) &&
        formatOf C.XF16 C.XF16ALT fmode.dst &&
        divSqrtOk C inst [VFDIV_H, VFDIV_R_H, VFSQRT_H]) {}),
    ([VFSUM_H, VFNSUM_H],
      offload (C.FP_EN && C.XFVEC && decide (C.FLEN ≥ 64) && C.XFDOTP &&
        formatOf C.XF16 C.XF16ALT fmode.src) {}),
    ([VFCVT_D_S, VFCVTU_D_S],
      offload (C.FP_EN && C.XFVEC && C.RVF && decide (C.FLEN ≥ 32) && (C.RVF && C.RVD)) {}),
    ([VFCPKA_H_S, VFCPKB_H_S, VFCVT_H_S, VFCVTU_H_S],
      offload (C.FP_EN && C.XFVEC && C.RVF && decide (C.FLEN ≥ 32) &&
        formatOf C.XF16 C.XF16ALT fmode.dst) {}),
    ([VFCVT_S_H, VFCVTU_S_H],
      offload (C.FP_EN && C.XFVEC && C.RVF && decide (C.FLEN ≥ 32) &&
        formatOf C.XF16 C.XF16ALT fmode.src) {}),
    ([VFCPKA_H_D, VFCPKB_H_D],
      offload (C.FP_EN && C.XFVEC && C.RVD && decide (C.FLEN ≥ 32) &&
        formatOf C.XF16 C.XF16ALT fmode.dst) {}),
    ([VFCVT_H_H, VFCVTU_H_H],
      offload (C.FP_EN && C.XFVEC && C.RVF && C.XF16 && C.XF16ALT && decide (C.FLEN ≥ 32) &&
        fmode.src != fmode.dst) {}),
    ([VFDOTPEX_S_H, VFDOTPEX_S_R_H, VFNDOTPEX_S_H, VFNDOTPEX_S_R_H, VFSUMEX_S_H, VFNSUMEX_S_H],
      offload (C.FP_EN && C.XFVEC && decide (C.FLEN ≥ 64) && C.XFDOTP && C.RVF &&
        formatOf C.XF16 C.XF16ALT fmode.src) {}),
    ([FADD_B, FSUB_B, FMUL_B, FSGNJ_B, FSGNJN_B, FSGNJX_B, FMIN_B, FMAX_B, FMADD_B, FMSUB_B,
      FNMSUB_B, FNMADD_B],
      offload (C.FP_EN && formatOf C.XF8 C.XF8ALT fmode.dst) {}),
    ([FMACEX_S_B, FMULEX_S_B], offload (C.FP_EN && C.RVF && C.XF16 && C.XFAUX) {}),
    ([FCVT_S_B], offload (C.FP_EN && C.RVF && formatOf C.XF8 C.XF8ALT fmode.src) {}),
    ([FCVT_B_S], offload (C.FP_EN && C.RVF && formatOf C.XF8 C.XF8ALT fmode.dst) {}),
    ([FCVT_D_B], offload (C.FP_EN && C.RVD && formatOf C.XF8 C.XF8ALT fmode.src) {}),
    -- the alternate branch of the source tests RVF here, not RVD
    ([FCVT_B_D], offload ((C.FP_EN && C.RVD && C.XF8 && !fmode.dst) ||
        (C.FP_EN && C.RVF && C.XF8ALT && fmode.dst)) {}),
    ([FCVT_H_B], offload (C.FP_EN && formatOf C.XF8 C.XF8ALT fmode.src &&
        formatOf C.XF16 C.XF16ALT fmode.dst) {}),
    ([FCVT_B_H], offload (C.FP_EN && formatOf C.XF16 C.XF16ALT fmode.src &&
        formatOf C.XF8 C.XF8ALT fmode.dst) {}),
    ([VFADD_B, VFADD_R_B, VFSUB_B, VFSUB_R_B, VFMUL_B, VFMUL_R_B, VFDIV_B, VFDIV_R_B, VFMIN_B,
      VFMIN_R_B, VFMAX_B, VFMAX_R_B, VFSQRT_B, VFMAC_B, VFMAC_R_B, VFMRE_B, VFMRE_R_B, VFSGNJ_B,
      VFSGNJ_R_B, VFSGNJN_B, VFSGNJN_R_B, VFSGNJX_B, VFSGNJX_R_B],
      offload (C.FP_EN && C.XFVEC && C.XF8 && decide (C.FLEN ≥ 16) &&
        divSqrtOk C inst [VFDIV_B, VFDIV_R_B, VFSQRT_B]) {}),
    ([VFSUM_B, VFNSUM_B],
      offload (C.FP_EN && C.XFVEC && decide (C.FLEN ≥ 32) && C.XFDOTP &&
        formatOf C.XF8 C.XF8ALT fmode.src) {}),
    ([VFCVT_B_S, VFCVTU_B_S, VFCPKA_B_S, VFCPKB_B_S, VFCPKC_B_S, VFCPKD_B_S],
      offload (C.FP_EN && C.XFVEC && C.RVF && decide (C.FLEN ≥ 16) &&
        formatOf C.XF8 C.XF8ALT fmode.dst) {}),
    ([VFCVT_S_B, VFCVTU_S_B],
      offload (C.FP_EN && C.XFVEC && C.RVF && decide (C.FLEN ≥ 16) &&
        formatOf C.XF8 C.XF8ALT fmode.src) {}),
    ([VFCPKA_B_D, VFCPKB_B_D, VFCPKC_B_D, VFCPKD_B_D],
      offload (C.FP_EN && C.XFVEC && C.RVD && decide (C.FLEN ≥ 16) &&
        formatOf C.XF8 C.XF8ALT fmode.dst) {}),
    ([VFCVT_B_H, VFCVTU_B_H],
      offload (C.FP_EN && C.XFVEC && decide (C.FLEN ≥ 16) &&
        formatOf C.XF16 C.XF16ALT fmode.src && formatOf C.XF8 C.XF8ALT fmode.dst) {}),
    ([VFCVT_H_B, VFCVTU_H_B],
      offload (C.FP_EN && C.XFVEC && decide (C.FLEN ≥ 16) &&
        formatOf C.XF8 C.XF8ALT fmode.src && formatOf C.XF16 C.XF16ALT fmode.dst) {}),
    ([VFCVT_B_B, VFCVTU_B_B],
      offload (C.FP_EN && C.XFVEC && C.RVF && C.XF8 && C.XF8ALT && decide (C.FLEN ≥ 16) &&
        fmode.src != fmode.dst) {}),
    ([VFDOTPEX_H_B, VFDOTPEX_H_R_B, VFNDOTPEX_H_B, VFNDOTPEX_H_R_B, VFSUMEX_H_B, VFNSUMEX_H_B],
      offload (C.FP_EN && C.XFVEC && decide (C.FLEN ≥ 32) && C.XFDOTP &&
        formatOf C.XF8 C.XF8ALT fmode.src && formatOf C.XF16 C.XF16ALT fmode.dst) {}) ]

/-- Floating-point instructions that answer into an integer register.  Where the
source has no `else` for a missing extension, the word decodes to the defaults:
it is neither offloaded nor illegal. -/
def fpToIntArms : List DecArm :=
  [ ([FLE_D, FLT_D, FEQ_D, FCLASS_D, FCVT_W_D, FCVT_WU_D],
      offload (C.FP_EN && C.RVD) (answered {})),
    ([FLT_D_COPIFT], offload (C.FP_EN && C.RVD && C.Xcopift) {}),
    ([FLE_S, FLT_S, FEQ_S, FCLASS_S, FCVT_W_S, FCVT_WU_S, FMV_X_W],
      offload (C.FP_EN && C.RVF) (answered {})),
    ([VFEQ_S, VFEQ_R_S, VFNE_S, VFNE_R_S, VFLT_S, VFLT_R_S, VFGE_S, VFGE_R_S, VFLE_S, VFLE_R_S,
      VFGT_S, VFGT_R_S, VFCLASS_S],
      offload (C.FP_EN && C.XFVEC && C.RVF && decide (C.FLEN ≥ 64)) (answered {})),
    ([FLE_H, FLT_H, FEQ_H, FCLASS_H, FCVT_W_H, FCVT_WU_H, FMV_X_H],
      offload (C.FP_EN && formatOf C.XF16 C.XF16ALT fmode.src) (answered {})),
    ([VFEQ_H, VFEQ_R_H, VFNE_H, VFNE_R_H, VFLT_H, VFLT_R_H, VFGE_H, VFGE_R_H, VFLE_H, VFLE_R_H,
      VFGT_H, VFGT_R_H, VFCLASS_H],
      if C.FP_EN && C.XFVEC && decide (C.FLEN ≥ 32)
      then offload (formatOf C.XF16 C.XF16ALT fmode.dst) (answered {}) else {}),
    ([VFMV_X_H, VFCVT_X_H, VFCVT_XU_H],
      if C.FP_EN && C.XFVEC && decide (C.FLEN ≥ 32) && !C.RVD
      then offload (formatOf C.XF16 C.XF16ALT fmode.src) (answered {}) else {}),
    ([FLE_B, FLT_B, FEQ_B, FCLASS_B, FCVT_W_B, FCVT_WU_B, FMV_X_B],
      offload (C.FP_EN && formatOf C.XF8 C.XF8ALT fmode.src) (answered {})),
    ([VFEQ_B, VFEQ_R_B, VFNE_B, VFNE_R_B, VFLT_B, VFLT_R_B, VFGE_B, VFGE_R_B, VFLE_B, VFLE_R_B,
      VFGT_B, VFGT_R_B],
      if C.FP_EN && C.XFVEC && decide (C.FLEN ≥ 16)
      then offload (formatOf C.XF8 C.XF8ALT fmode.src) (answered {}) else {}),
    ([VFMV_X_B, VFCLASS_B, VFCVT_X_B, VFCVT_XU_B],
      if C.FP_EN && C.XFVEC && decide (C.FLEN ≥ 16) && !C.RVD
      then offload (formatOf C.XF8 C.XF8ALT fmode.src) (answered {}) else {}) ]

/-- Integer operands into the FP subsystem, and the FP sequencer. -/
def intToFpArms : List DecArm :=
  [ ([FCVT_D_W, FCVT_D_WU], offload (C.FP_EN && C.RVD) { opaSelect := .reg }),
    ([FCVT_D_W_COPIFT, FCVT_D_WU_COPIFT], offload (C.FP_EN && C.RVD && C.Xcopift) {}),
    ([FMV_W_X, FCVT_S_W, FCVT_S_WU], offload (C.FP_EN && C.RVF) { opaSelect := .reg }),
    ([FMV_H_X, FCVT_H_W, FCVT_H_WU],
      offload (C.FP_EN && formatOf C.XF16 C.XF16ALT fmode.dst) { opaSelect := .reg }),
    ([VFMV_H_X, VFCVT_H_X, VFCVT_H_XU],
      if C.FP_EN && C.XFVEC && decide (C.FLEN ≥ 32) && !C.RVD
      then offload (formatOf C.XF16 C.XF16ALT fmode.dst) {} else {}),
    ([FMV_B_X, FCVT_B_W, FCVT_B_WU],
      offload (C.FP_EN && formatOf C.XF8 C.XF8ALT fmode.dst) { opaSelect := .reg }),
    ([VFMV_B_X, VFCVT_B_X, VFCVT_B_XU],
      if C.FP_EN && C.XFVEC && decide (C.FLEN ≥ 16) && !C.RVD
      then offload (formatOf C.XF8 C.XF8ALT fmode.dst) {} else {}),
    ([FREP_O], offload C.FP_EN { opaSelect := .reg }) ]

/-- Floating-point loads and stores. -/
def fpAccessArms : List DecArm :=
  [ ([FLW], fpAccess (C.FP_EN && C.RVF)
      { opbSelect := .iImmediate, lsSize := .word, isFpLoad := true }),
    ([FSW], fpAccess (C.FP_EN && C.RVF)
      { opbSelect := .sfImmediate, lsSize := .word, isFpStore := true }),
    ([FLD], fpAccess (C.FP_EN && (C.RVD || C.XFVEC))
      { opbSelect := .iImmediate, lsSize := .double, isFpLoad := true }),
    ([FSD], fpAccess (C.FP_EN && (C.RVD || C.XFVEC))
      { opbSelect := .sfImmediate, lsSize := .double, isFpStore := true }),
    ([FLH], fpAccess (C.FP_EN && (C.XF16 || C.XF16ALT))
      { opbSelect := .iImmediate, lsSize := .halfWord, isFpLoad := true }),
    ([FSH], fpAccess (C.FP_EN && (C.XF16 || C.XF16ALT))
      { opbSelect := .sfImmediate, lsSize := .halfWord, isFpStore := true }),
    ([FLB], fpAccess (C.FP_EN && (C.XF8 || C.XF8ALT))
      { opbSelect := .iImmediate, lsSize := .byte, isFpLoad := true }),
    ([FSB], fpAccess (C.FP_EN && (C.XF8 || C.XF8ALT))
      { opbSelect := .sfImmediate, lsSize := .byte, isFpStore := true }) ]

/-- DMA and stream configuration. -/
def customArms : List DecArm :=
  [ ([DMSRC, DMDST, DMSTR],
      offload C.Xdma { accAddr := .dmaSs, opaSelect := .reg, opbSelect := .reg }),
    ([DMCPYI], offload C.Xdma (answered { accAddr := .dmaSs, opaSelect := .reg })),
    ([DMCPY],
      offload C.Xdma (answered { accAddr := .dmaSs, opaSelect := .reg, opbSelect := .reg })),
    ([DMSTATI], offload C.Xdma (answered { accAddr := .dmaSs })),
    ([DMSTAT], offload C.Xdma (answered { accAddr := .dmaSs, opbSelect := .reg })),
    ([DMREP], offload C.Xdma { accAddr := .dmaSs, opaSelect := .reg }),
    ([DMMCAST], offload C.Xdma { accAddr := .dmaSs, opaSelect := .reg }),
    ([SCFGRI], offload C.Xssr (answered { accAddr := .ssrCfg })),
    ([SCFGWI], offload C.Xssr { accAddr := .ssrCfg, opaSelect := .reg }),
    ([SCFGR], offload C.Xssr (answered { accAddr := .ssrCfg, opbSelect := .reg })),
    ([SCFGW], offload C.Xssr { accAddr := .ssrCfg, opaSelect := .reg, opbSelect := .reg }) ]

/-- All arms, in the order of the source. -/
def decoderArms : List DecArm :=
  baseArms ++ csrArms inst ++ systemArms privLvl debug ++ atomicArms ++ intSsArms C ++
    fpArms C fmode inst ++ fpToIntArms C fmode ++ intToFpArms C fmode ++ fpAccessArms C ++
    customArms C

/-- `unique casez (inst_data_i)`: the first arm that matches; anything else is
illegal. -/
def decode : Dec := firstMatch (decoderArms C privLvl debug fmode inst) illegal inst

end Arms

/-! ## What a word decodes to -/

section Values

open Dec

variable (C : Cfg) (privLvl : PrivLvl) (debug : Bool) (fmode : FmtMode) (inst : BitVec 32)

/-- An offloaded arm is illegal, or what it is with its extension present. -/
theorem offload_all {d : Dec} (Q : Dec → Prop) (missing : Q illegal) (there : Q (offload true d))
    (present : Bool) : Q (offload present d) := by
  cases present with
  | true => exact there
  | false => exact missing

theorem fpAccess_all {d : Dec} (Q : Dec → Prop) (missing : Q illegal)
    (there : Q (fpAccess true d)) (present : Bool) : Q (fpAccess present d) := by
  cases present with
  | true => exact there
  | false => exact missing

theorem ite_all {cond : Prop} [Decidable cond] {d e : Dec} (Q : Dec → Prop) (left : Q d)
    (right : Q e) : Q (if cond then d else e) := by
  split
  · exact left
  · exact right

def csrValues : List Dec :=
  [ csr .add .reg .none, csr .add .csrImmmediate .none, csr .lOr .reg .csr,
    csr .lOr .csrImmmediate .csr, csr .lNAnd .reg .csr, csr .lNAnd .csrImmmediate .csr,
    offload true {}, offload true { opaSelect := .reg } ]

theorem csrArms_values : ∀ arm ∈ csrArms inst, arm.2 ∈ csrValues := by
  simp only [csrArms, List.forall_mem_cons]
  refine ⟨by decide, by decide, ?_, ?_, ?_, ?_, by simp⟩ <;>
    exact ite_all (· ∈ csrValues) (by decide) (by decide)

def intSsValues : List Dec :=
  [ illegal,
    offload true (answered { opaSelect := .reg, opbSelect := .reg, accAddr := .sharedMuldiv }),
    offload true (answered { opaSelect := .reg, opbSelect := .reg, accAddr := .intSs }),
    offload true (answered { opaSelect := .reg, opbSelect := .iImmediate, accAddr := .intSs }),
    offload true { accAddr := .intSs }, offload true (answered { accAddr := .intSs }),
    offload true { accAddr := .intSs, opaSelect := .reg } ]

theorem intSsArms_values : ∀ arm ∈ intSsArms C, arm.2 ∈ intSsValues := by
  simp only [intSsArms, List.forall_mem_cons]
  refine ⟨?_, ?_, ?_, ?_, ?_, ?_, ?_, by simp⟩ <;>
    exact offload_all (· ∈ intSsValues) (by decide) (by decide) _

def fpValues : List Dec := [illegal, offload true {}]

theorem fpArms_values : ∀ arm ∈ fpArms C fmode inst, arm.2 ∈ fpValues := by
  have plain := offload_all (d := {}) (· ∈ fpValues) (by decide) (by decide)
  simp only [fpArms, List.forall_mem_cons, plain, true_and]
  simp

def fpToIntValues : List Dec := [{}, illegal, offload true {}, offload true (answered {})]

theorem fpToIntArms_values : ∀ arm ∈ fpToIntArms C fmode, arm.2 ∈ fpToIntValues := by
  have plain := offload_all (d := {}) (· ∈ fpToIntValues) (by decide) (by decide)
  have answer := offload_all (d := answered {}) (· ∈ fpToIntValues) (by decide) (by decide)
  simp only [fpToIntArms, List.forall_mem_cons, plain, answer, true_and]
  refine ⟨?_, ?_, ?_, ?_, by simp⟩ <;>
    exact ite_all (· ∈ fpToIntValues) (answer _) (by decide)

def intToFpValues : List Dec := [{}, illegal, offload true {}, offload true { opaSelect := .reg }]

theorem intToFpArms_values : ∀ arm ∈ intToFpArms C fmode, arm.2 ∈ intToFpValues := by
  have plain := offload_all (d := {}) (· ∈ intToFpValues) (by decide) (by decide)
  have operand := offload_all (d := { opaSelect := .reg }) (· ∈ intToFpValues) (by decide)
    (by decide)
  simp only [intToFpArms, List.forall_mem_cons, plain, operand, true_and]
  refine ⟨?_, ?_, by simp⟩ <;> exact ite_all (· ∈ intToFpValues) (plain _) (by decide)

def fpAccessValues : List Dec :=
  illegal :: [LsSize.byte, .halfWord, .word, .double].flatMap fun size =>
    [ fpAccess true { opbSelect := .iImmediate, lsSize := size, isFpLoad := true },
      fpAccess true { opbSelect := .sfImmediate, lsSize := size, isFpStore := true } ]

theorem fpAccessArms_values : ∀ arm ∈ fpAccessArms C, arm.2 ∈ fpAccessValues := by
  simp only [fpAccessArms, List.forall_mem_cons]
  refine ⟨?_, ?_, ?_, ?_, ?_, ?_, ?_, ?_, by simp⟩ <;>
    exact fpAccess_all (· ∈ fpAccessValues) (by decide) (by decide) _

def customValues : List Dec :=
  [ illegal, offload true { accAddr := .dmaSs, opaSelect := .reg },
    offload true { accAddr := .dmaSs, opaSelect := .reg, opbSelect := .reg },
    offload true (answered { accAddr := .dmaSs }),
    offload true (answered { accAddr := .dmaSs, opaSelect := .reg }),
    offload true (answered { accAddr := .dmaSs, opbSelect := .reg }),
    offload true (answered { accAddr := .dmaSs, opaSelect := .reg, opbSelect := .reg }),
    offload true (answered { accAddr := .ssrCfg }),
    offload true (answered { accAddr := .ssrCfg, opbSelect := .reg }),
    offload true { accAddr := .ssrCfg, opaSelect := .reg },
    offload true { accAddr := .ssrCfg, opaSelect := .reg, opbSelect := .reg } ]

theorem customArms_values : ∀ arm ∈ customArms C, arm.2 ∈ customValues := by
  simp only [customArms, List.forall_mem_cons]
  refine ⟨?_, ?_, ?_, ?_, ?_, ?_, ?_, ?_, ?_, ?_, ?_, by simp⟩ <;>
    exact offload_all (· ∈ customValues) (by decide) (by decide) _

/-- What the CSR accesses, the atomics and the offloaded instructions yield. -/
def otherValues : List Dec :=
  [ {}, illegal,
    csr .add .reg .none, csr .add .csrImmmediate .none, csr .lOr .reg .csr,
    csr .lOr .csrImmmediate .csr, csr .lNAnd .reg .csr, csr .lNAnd .csrImmmediate .csr ] ++
  atomicArms.map Prod.snd ++
  [ offload true {}, offload true { opaSelect := .reg }, offload true (answered {}),
    offload true { accAddr := .intSs }, offload true { accAddr := .intSs, opaSelect := .reg },
    offload true (answered { accAddr := .intSs }),
    offload true (answered { opaSelect := .reg, opbSelect := .reg, accAddr := .sharedMuldiv }),
    offload true (answered { opaSelect := .reg, opbSelect := .reg, accAddr := .intSs }),
    offload true (answered { opaSelect := .reg, opbSelect := .iImmediate, accAddr := .intSs }),
    offload true { accAddr := .dmaSs, opaSelect := .reg },
    offload true { accAddr := .dmaSs, opaSelect := .reg, opbSelect := .reg },
    offload true (answered { accAddr := .dmaSs }),
    offload true (answered { accAddr := .dmaSs, opaSelect := .reg }),
    offload true (answered { accAddr := .dmaSs, opbSelect := .reg }),
    offload true (answered { accAddr := .dmaSs, opaSelect := .reg, opbSelect := .reg }),
    offload true (answered { accAddr := .ssrCfg }),
    offload true (answered { accAddr := .ssrCfg, opbSelect := .reg }),
    offload true { accAddr := .ssrCfg, opaSelect := .reg },
    offload true { accAddr := .ssrCfg, opaSelect := .reg, opbSelect := .reg } ] ++
  [LsSize.byte, .halfWord, .word, .double].flatMap fun size =>
    [ fpAccess true { opbSelect := .iImmediate, lsSize := size, isFpLoad := true },
      fpAccess true { opbSelect := .sfImmediate, lsSize := size, isFpStore := true } ]

/-- **What a word decodes to**: the arm of a computation, a jump, an access or a system
instruction, whose pattern it meets, or one of a few other values. -/
theorem decode_cases :
    (∃ arm ∈ baseArms ++ systemArms privLvl debug, inside inst arm.1 = true ∧
        decode C privLvl debug fmode inst = arm.2) ∨
      decode C privLvl debug fmode inst ∈ otherValues := by
  have csrKnown : ∀ d ∈ csrValues, d ∈ otherValues := by decide
  have intSsKnown : ∀ d ∈ intSsValues, d ∈ otherValues := by decide
  have fpKnown : ∀ d ∈ fpValues, d ∈ otherValues := by decide
  have fpToIntKnown : ∀ d ∈ fpToIntValues, d ∈ otherValues := by decide
  have intToFpKnown : ∀ d ∈ intToFpValues, d ∈ otherValues := by decide
  have accessKnown : ∀ d ∈ fpAccessValues, d ∈ otherValues := by decide
  have customKnown : ∀ d ∈ customValues, d ∈ otherValues := by decide
  rcases firstMatch_mem (decoderArms C privLvl debug fmode inst) illegal inst with
    missed | ⟨arm, member, hit, taken⟩
  · right
    rw [decode, missed]
    decide
  · simp only [decoderArms, List.append_assoc, List.mem_append] at member
    rw [decode, taken]
    rcases member with base | csr | system | atomic | intSs | fp | fpToInt | intToFp | access | custom
    · exact .inl ⟨arm, List.mem_append_left _ base, hit, rfl⟩
    · exact .inr (csrKnown _ (csrArms_values _ _ csr))
    · exact .inl ⟨arm, List.mem_append_right _ system, hit, rfl⟩
    · have value : arm.2 ∈ atomicArms.map Prod.snd := List.mem_map_of_mem atomic
      exact .inr (List.mem_append_left _ (List.mem_append_left _ (List.mem_append_right _ value)))
    · exact .inr (intSsKnown _ (intSsArms_values _ _ intSs))
    · exact .inr (fpKnown _ (fpArms_values _ _ _ _ fp))
    · exact .inr (fpToIntKnown _ (fpToIntArms_values _ _ _ fpToInt))
    · exact .inr (intToFpKnown _ (intToFpArms_values _ _ _ intToFp))
    · exact .inr (accessKnown _ (fpAccessArms_values _ _ access))
    · exact .inr (customKnown _ (customArms_values _ _ custom))

/-- What holds of those arms and of the other values holds of every word. -/
theorem decode_all (Q : Dec → Prop) (base : ∀ arm ∈ baseArms, Q arm.2)
    (system : ∀ arm ∈ systemArms privLvl debug, Q arm.2) (others : ∀ d ∈ otherValues, Q d) :
    Q (decode C privLvl debug fmode inst) := by
  rcases decode_cases C privLvl debug fmode inst with ⟨arm, member, -, taken⟩ | other
  · rw [taken]
    rcases List.mem_append.mp member with among | among
    · exact base arm among
    · exact system arm among
  · exact others _ other

end Values

/-! ## What an arm can ask for -/

namespace Dec

/-- The exclusive uses of an instruction: an integer access, a floating-point
access, a fence and a plain offload never share an arm, and none of them traps
by itself or touches a CSR. -/
structure Exclusive (fpEn : Bool) (d : Dec) : Prop where
  access : (d.isLoad || d.isStore) = true →
    d.isFpLoad = false ∧ d.isFpStore = false ∧ d.fence = false ∧ d.fenceI = false ∧
      d.accQvalid = false
  fpAccess : (d.isFpLoad || d.isFpStore) = true →
    d.isLoad = false ∧ d.isStore = false ∧ d.fence = false ∧ d.fenceI = false ∧
      d.accQvalid = true ∧ d.isBranch = false ∧ d.nextPc = .consec ∧ fpEn = true
  gated : d.accQgated = (d.isFpLoad || d.isFpStore)
  fences : (d.fence || d.fenceI) = true →
    d.accQvalid = false ∧ (d.fence && d.fenceI) = false
  silent : (d.memory || d.fence || d.fenceI) = true →
    d.illegalInst = false ∧ d.ecall = false ∧ d.ebreak = false ∧ d.csrEn = false
  consec : d.nextPc ≠ .exception

instance (fpEn : Bool) (d : Dec) : Decidable (d.Exclusive fpEn) :=
  decidable_of_iff
    (((d.isLoad || d.isStore) = true →
        d.isFpLoad = false ∧ d.isFpStore = false ∧ d.fence = false ∧ d.fenceI = false ∧
          d.accQvalid = false) ∧
      ((d.isFpLoad || d.isFpStore) = true →
        d.isLoad = false ∧ d.isStore = false ∧ d.fence = false ∧ d.fenceI = false ∧
          d.accQvalid = true ∧ d.isBranch = false ∧ d.nextPc = .consec ∧ fpEn = true) ∧
      d.accQgated = (d.isFpLoad || d.isFpStore) ∧
      ((d.fence || d.fenceI) = true → d.accQvalid = false ∧ (d.fence && d.fenceI) = false) ∧
      ((d.memory || d.fence || d.fenceI) = true →
        d.illegalInst = false ∧ d.ecall = false ∧ d.ebreak = false ∧ d.csrEn = false) ∧
      d.nextPc ≠ .exception)
    ⟨fun ⟨a, f, g, e, q, n⟩ => ⟨a, f, g, e, q, n⟩,
      fun ⟨a, f, g, e, q, n⟩ => ⟨a, f, g, e, q, n⟩⟩

theorem exclusive_illegal (fpEn : Bool) : illegal.Exclusive fpEn := by
  cases fpEn <;> decide

/-- A floating-point access needs the floating-point configuration. -/
theorem exclusive_fpAccess {fpEn present : Bool} {d : Dec}
    (plain : (fpAccess true d).Exclusive true) :
    (fpAccess (fpEn && present) d).Exclusive fpEn := by
  cases fpEn with
  | false => exact exclusive_illegal false
  | true =>
    cases present with
    | true => exact plain
    | false => exact exclusive_illegal true

end Dec

section Exclusive

open Dec

variable (C : Cfg) (privLvl : PrivLvl) (debug : Bool) (fmode : FmtMode) (inst : BitVec 32)

section

variable (fpEn : Bool)

include fpEn

theorem baseArms_exclusive : ∀ arm ∈ baseArms, arm.2.Exclusive fpEn := by
  cases fpEn <;> decide

theorem csrArms_exclusive : ∀ arm ∈ csrArms inst, arm.2.Exclusive fpEn := by
  have known : ∀ d ∈ csrValues, d.Exclusive fpEn := by cases fpEn <;> decide
  intro arm member
  exact known _ (csrArms_values inst arm member)

theorem systemArms_exclusive : ∀ arm ∈ systemArms privLvl debug, arm.2.Exclusive fpEn := by
  simp only [systemArms, List.forall_mem_cons]
  refine ⟨?_, ?_, ite_all _ ?_ ?_, ite_all _ ?_ ?_, ite_all _ ?_ ?_, ?_, ?_, ite_all _ ?_ ?_,
    ite_all _ ?_ ?_, by simp⟩ <;> cases fpEn <;> cases debug <;> decide

theorem atomicArms_exclusive : ∀ arm ∈ atomicArms, arm.2.Exclusive fpEn := by
  cases fpEn <;> decide

theorem intSsArms_exclusive : ∀ arm ∈ intSsArms C, arm.2.Exclusive fpEn := by
  have known : ∀ d ∈ intSsValues, d.Exclusive fpEn := by cases fpEn <;> decide
  intro arm member
  exact known _ (intSsArms_values C arm member)

theorem fpArms_exclusive : ∀ arm ∈ fpArms C fmode inst, arm.2.Exclusive fpEn := by
  have known : ∀ d ∈ fpValues, d.Exclusive fpEn := by cases fpEn <;> decide
  intro arm member
  exact known _ (fpArms_values C fmode inst arm member)

theorem fpToIntArms_exclusive : ∀ arm ∈ fpToIntArms C fmode, arm.2.Exclusive fpEn := by
  have known : ∀ d ∈ fpToIntValues, d.Exclusive fpEn := by cases fpEn <;> decide
  intro arm member
  exact known _ (fpToIntArms_values C fmode arm member)

theorem intToFpArms_exclusive : ∀ arm ∈ intToFpArms C fmode, arm.2.Exclusive fpEn := by
  have known : ∀ d ∈ intToFpValues, d.Exclusive fpEn := by cases fpEn <;> decide
  intro arm member
  exact known _ (intToFpArms_values C fmode arm member)

end

theorem fpAccessArms_exclusive : ∀ arm ∈ fpAccessArms C, arm.2.Exclusive C.FP_EN := by
  simp only [fpAccessArms, List.forall_mem_cons]
  refine ⟨?_, ?_, ?_, ?_, ?_, ?_, ?_, ?_, by simp⟩ <;> exact exclusive_fpAccess (by decide)

theorem customArms_exclusive (fpEn : Bool) :
    ∀ arm ∈ customArms C, arm.2.Exclusive fpEn := by
  have known : ∀ d ∈ customValues, d.Exclusive fpEn := by cases fpEn <;> decide
  intro arm member
  exact known _ (customArms_values C arm member)

/-- **Every instruction word decodes to an exclusive arm.** -/
theorem decode_exclusive : (decode C privLvl debug fmode inst).Exclusive C.FP_EN := by
  refine firstMatch_all (Exclusive C.FP_EN) (exclusive_illegal _) ?_ inst
  simp only [decoderArms, List.forall_mem_append]
  exact ⟨⟨⟨⟨⟨⟨⟨⟨⟨baseArms_exclusive _, csrArms_exclusive _ _⟩, systemArms_exclusive _ _ _⟩,
    atomicArms_exclusive _⟩, intSsArms_exclusive _ _⟩, fpArms_exclusive _ _ _ _⟩,
    fpToIntArms_exclusive _ _ _⟩, intToFpArms_exclusive _ _ _⟩, fpAccessArms_exclusive _⟩,
    customArms_exclusive _ _⟩

/-- The words whose target must be aligned. -/
def jumps : List (BitPat 32) := [JAL, JALR, BEQ, BNE, BLT, BLTU, BGE, BGEU]

/-- The arms of the jumps and branches stand among the first, and the memory
accesses there share no word with them. -/
theorem baseArms_jump : (∀ p ∈ jumps, ∃ arm ∈ baseArms, p ∈ arm.1) ∧
    ∀ arm ∈ baseArms, arm.2.memory = true → ∀ q ∈ arm.1, ∀ p ∈ jumps, apart p q = true := by
  decide

/-- A jump or branch does not access memory. -/
theorem decode_jump (isJump : inside inst jumps = true) :
    (decode C privLvl debug fmode inst).memory = false := by
  obtain ⟨p, jump, met⟩ := List.any_eq_true.mp isJump
  have front : ∃ arm ∈ baseArms, inside inst arm.1 = true := by
    obtain ⟨arm, member, among⟩ := baseArms_jump.1 p jump
    exact ⟨arm, member, List.any_eq_true.mpr ⟨p, among, met⟩⟩
  rw [decode, decoderArms]
  simp only [List.append_assoc]
  rw [firstMatch_front _ _ front]
  rcases firstMatch_mem baseArms Dec.illegal inst with missed | ⟨arm, member, hit, taken⟩
  · rw [missed]; rfl
  · rw [taken]
    by_contra access
    obtain ⟨q, among, other⟩ := List.any_eq_true.mp hit
    have differ := baseArms_jump.2 arm member (by simpa using access) q among p jump
    rw [apart_sound differ met] at other
    contradiction

end Exclusive

end SnitchCluster.Core
