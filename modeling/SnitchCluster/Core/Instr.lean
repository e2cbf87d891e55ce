/-
# Core.Instr -- the instruction words and CSR addresses the core decodes

The patterns of package `riscv_instr` that `snitch.sv` names, in the order its
decoder reads them: first the bits that matter, then their values.
-/
import SnitchCluster.Theory.CaseZ

namespace SnitchCluster.Core.Instr

open Theory

def ADD : BitPat 32 := ⟨0xfe00707f, 0x00000033⟩
def ADDI : BitPat 32 := ⟨0x0000707f, 0x00000013⟩
def SUB : BitPat 32 := ⟨0xfe00707f, 0x40000033⟩
def XOR : BitPat 32 := ⟨0xfe00707f, 0x00004033⟩
def XORI : BitPat 32 := ⟨0x0000707f, 0x00004013⟩
def OR : BitPat 32 := ⟨0xfe00707f, 0x00006033⟩
def ORI : BitPat 32 := ⟨0x0000707f, 0x00006013⟩
def AND : BitPat 32 := ⟨0xfe00707f, 0x00007033⟩
def ANDI : BitPat 32 := ⟨0x0000707f, 0x00007013⟩
def SLT : BitPat 32 := ⟨0xfe00707f, 0x00002033⟩
def SLTI : BitPat 32 := ⟨0x0000707f, 0x00002013⟩
def SLTU : BitPat 32 := ⟨0xfe00707f, 0x00003033⟩
def SLTIU : BitPat 32 := ⟨0x0000707f, 0x00003013⟩
def SLL : BitPat 32 := ⟨0xfe00707f, 0x00001033⟩
def SRL : BitPat 32 := ⟨0xfe00707f, 0x00005033⟩
def SRA : BitPat 32 := ⟨0xfe00707f, 0x40005033⟩
def SLLI : BitPat 32 := ⟨0xfc00707f, 0x00001013⟩
def SRLI : BitPat 32 := ⟨0xfc00707f, 0x00005013⟩
def SRAI : BitPat 32 := ⟨0xfc00707f, 0x40005013⟩
def LUI : BitPat 32 := ⟨0x0000007f, 0x00000037⟩
def AUIPC : BitPat 32 := ⟨0x0000007f, 0x00000017⟩
def JAL : BitPat 32 := ⟨0x0000007f, 0x0000006f⟩
def JALR : BitPat 32 := ⟨0x0000707f, 0x00000067⟩
def BEQ : BitPat 32 := ⟨0x0000707f, 0x00000063⟩
def BNE : BitPat 32 := ⟨0x0000707f, 0x00001063⟩
def BLT : BitPat 32 := ⟨0x0000707f, 0x00004063⟩
def BLTU : BitPat 32 := ⟨0x0000707f, 0x00006063⟩
def BGE : BitPat 32 := ⟨0x0000707f, 0x00005063⟩
def BGEU : BitPat 32 := ⟨0x0000707f, 0x00007063⟩
def SB : BitPat 32 := ⟨0x0000707f, 0x00000023⟩
def SH : BitPat 32 := ⟨0x0000707f, 0x00001023⟩
def SW : BitPat 32 := ⟨0x0000707f, 0x00002023⟩
def LB : BitPat 32 := ⟨0x0000707f, 0x00000003⟩
def LH : BitPat 32 := ⟨0x0000707f, 0x00001003⟩
def LW : BitPat 32 := ⟨0x0000707f, 0x00002003⟩
def LBU : BitPat 32 := ⟨0x0000707f, 0x00004003⟩
def LHU : BitPat 32 := ⟨0x0000707f, 0x00005003⟩
def CSRRW : BitPat 32 := ⟨0x0000707f, 0x00001073⟩
def CSRRWI : BitPat 32 := ⟨0x0000707f, 0x00005073⟩
def CSRRS : BitPat 32 := ⟨0x0000707f, 0x00002073⟩
def CSRRSI : BitPat 32 := ⟨0x0000707f, 0x00006073⟩
def CSRRC : BitPat 32 := ⟨0x0000707f, 0x00003073⟩
def CSRRCI : BitPat 32 := ⟨0x0000707f, 0x00007073⟩
def ECALL : BitPat 32 := ⟨0xffffffff, 0x00000073⟩
def EBREAK : BitPat 32 := ⟨0xffffffff, 0x00100073⟩
def SRET : BitPat 32 := ⟨0xffffffff, 0x10200073⟩
def MRET : BitPat 32 := ⟨0xffffffff, 0x30200073⟩
def DRET : BitPat 32 := ⟨0xffffffff, 0x7b200073⟩
def FENCE : BitPat 32 := ⟨0x0000707f, 0x0000000f⟩
def FENCE_I : BitPat 32 := ⟨0x0000707f, 0x0000100f⟩
def SFENCE_VMA : BitPat 32 := ⟨0xfe007fff, 0x12000073⟩
def WFI : BitPat 32 := ⟨0xffffffff, 0x10500073⟩
def AMOADD_W : BitPat 32 := ⟨0xf800707f, 0x0000202f⟩
def AMOXOR_W : BitPat 32 := ⟨0xf800707f, 0x2000202f⟩
def AMOOR_W : BitPat 32 := ⟨0xf800707f, 0x4000202f⟩
def AMOAND_W : BitPat 32 := ⟨0xf800707f, 0x6000202f⟩
def AMOMIN_W : BitPat 32 := ⟨0xf800707f, 0x8000202f⟩
def AMOMAX_W : BitPat 32 := ⟨0xf800707f, 0xa000202f⟩
def AMOMINU_W : BitPat 32 := ⟨0xf800707f, 0xc000202f⟩
def AMOMAXU_W : BitPat 32 := ⟨0xf800707f, 0xe000202f⟩
def AMOSWAP_W : BitPat 32 := ⟨0xf800707f, 0x0800202f⟩
def LR_W : BitPat 32 := ⟨0xf9f0707f, 0x1000202f⟩
def SC_W : BitPat 32 := ⟨0xf800707f, 0x1800202f⟩
def MUL : BitPat 32 := ⟨0xfe00707f, 0x02000033⟩
def MULH : BitPat 32 := ⟨0xfe00707f, 0x02001033⟩
def MULHSU : BitPat 32 := ⟨0xfe00707f, 0x02002033⟩
def MULHU : BitPat 32 := ⟨0xfe00707f, 0x02003033⟩
def DIV : BitPat 32 := ⟨0xfe00707f, 0x02004033⟩
def DIVU : BitPat 32 := ⟨0xfe00707f, 0x02005033⟩
def REM : BitPat 32 := ⟨0xfe00707f, 0x02006033⟩
def REMU : BitPat 32 := ⟨0xfe00707f, 0x02007033⟩
def MULW : BitPat 32 := ⟨0xfe00707f, 0x0200003b⟩
def DIVW : BitPat 32 := ⟨0xfe00707f, 0x0200403b⟩
def DIVUW : BitPat 32 := ⟨0xfe00707f, 0x0200503b⟩
def REMW : BitPat 32 := ⟨0xfe00707f, 0x0200603b⟩
def REMUW : BitPat 32 := ⟨0xfe00707f, 0x0200703b⟩
def ANDN : BitPat 32 := ⟨0xfe00707f, 0x40007033⟩
def ORN : BitPat 32 := ⟨0xfe00707f, 0x40006033⟩
def XNOR : BitPat 32 := ⟨0xfe00707f, 0x40004033⟩
def SLO : BitPat 32 := ⟨0xfe00707f, 0x20001033⟩
def SRO : BitPat 32 := ⟨0xfe00707f, 0x20005033⟩
def ROL : BitPat 32 := ⟨0xfe00707f, 0x60001033⟩
def ROR : BitPat 32 := ⟨0xfe00707f, 0x60005033⟩
def SBCLR : BitPat 32 := ⟨0xfe00707f, 0x48001033⟩
def SBSET : BitPat 32 := ⟨0xfe00707f, 0x28001033⟩
def SBINV : BitPat 32 := ⟨0xfe00707f, 0x68001033⟩
def SBEXT : BitPat 32 := ⟨0xfe00707f, 0x48005033⟩
def GORC : BitPat 32 := ⟨0xfe00707f, 0x28005033⟩
def GREV : BitPat 32 := ⟨0xfe00707f, 0x68005033⟩
def CLZ : BitPat 32 := ⟨0xfff0707f, 0x60001013⟩
def CTZ : BitPat 32 := ⟨0xfff0707f, 0x60101013⟩
def PCNT : BitPat 32 := ⟨0xfff0707f, 0x60201013⟩
def SEXT_B : BitPat 32 := ⟨0xfff0707f, 0x60401013⟩
def SEXT_H : BitPat 32 := ⟨0xfff0707f, 0x60501013⟩
def CRC32_B : BitPat 32 := ⟨0xfff0707f, 0x61001013⟩
def CRC32_H : BitPat 32 := ⟨0xfff0707f, 0x61101013⟩
def CRC32_W : BitPat 32 := ⟨0xfff0707f, 0x61201013⟩
def CRC32C_B : BitPat 32 := ⟨0xfff0707f, 0x61801013⟩
def CRC32C_H : BitPat 32 := ⟨0xfff0707f, 0x61901013⟩
def CRC32C_W : BitPat 32 := ⟨0xfff0707f, 0x61a01013⟩
def CLMUL : BitPat 32 := ⟨0xfe00707f, 0x0a001033⟩
def CLMULR : BitPat 32 := ⟨0xfe00707f, 0x0a002033⟩
def CLMULH : BitPat 32 := ⟨0xfe00707f, 0x0a003033⟩
def MIN : BitPat 32 := ⟨0xfe00707f, 0x0a004033⟩
def MAX : BitPat 32 := ⟨0xfe00707f, 0x0a005033⟩
def MINU : BitPat 32 := ⟨0xfe00707f, 0x0a006033⟩
def MAXU : BitPat 32 := ⟨0xfe00707f, 0x0a007033⟩
def SHFL : BitPat 32 := ⟨0xfe00707f, 0x08001033⟩
def UNSHFL : BitPat 32 := ⟨0xfe00707f, 0x08005033⟩
def BEXT : BitPat 32 := ⟨0xfe00707f, 0x08006033⟩
def BDEP : BitPat 32 := ⟨0xfe00707f, 0x48006033⟩
def PACK : BitPat 32 := ⟨0xfe00707f, 0x08004033⟩
def PACKU : BitPat 32 := ⟨0xfe00707f, 0x48004033⟩
def PACKH : BitPat 32 := ⟨0xfe00707f, 0x08007033⟩
def BFP : BitPat 32 := ⟨0xfe00707f, 0x48007033⟩
def SLOI : BitPat 32 := ⟨0xfc00707f, 0x20001013⟩
def SROI : BitPat 32 := ⟨0xfc00707f, 0x20005013⟩
def RORI : BitPat 32 := ⟨0xfc00707f, 0x60005013⟩
def SBCLRI : BitPat 32 := ⟨0xfc00707f, 0x48001013⟩
def SBSETI : BitPat 32 := ⟨0xfc00707f, 0x28001013⟩
def SBINVI : BitPat 32 := ⟨0xfc00707f, 0x68001013⟩
def SBEXTI : BitPat 32 := ⟨0xfc00707f, 0x48005013⟩
def GORCI : BitPat 32 := ⟨0xfc00707f, 0x28005013⟩
def GREVI : BitPat 32 := ⟨0xfc00707f, 0x68005013⟩
def SHFLI : BitPat 32 := ⟨0xfe00707f, 0x08001013⟩
def UNSHFLI : BitPat 32 := ⟨0xfe00707f, 0x08005013⟩
def IADDI : BitPat 32 := ⟨0x0000707f, 0x0000007b⟩
def ISLLI : BitPat 32 := ⟨0xfc00707f, 0x0000107b⟩
def ISLTI : BitPat 32 := ⟨0x0000707f, 0x0000207b⟩
def ISLTIU : BitPat 32 := ⟨0x0000707f, 0x0000307b⟩
def IXORI : BitPat 32 := ⟨0x0000707f, 0x0000407b⟩
def ISRLI : BitPat 32 := ⟨0xfc00707f, 0x0000507b⟩
def ISRAI : BitPat 32 := ⟨0xfc00707f, 0x4000507b⟩
def IORI : BitPat 32 := ⟨0x0000707f, 0x0000607b⟩
def IANDI : BitPat 32 := ⟨0x0000707f, 0x0000707b⟩
def IADD : BitPat 32 := ⟨0xfe00707f, 0x0000005b⟩
def ISUB : BitPat 32 := ⟨0xfe00707f, 0x4000005b⟩
def ISLL : BitPat 32 := ⟨0xfe00707f, 0x0000105b⟩
def ISLT : BitPat 32 := ⟨0xfe00707f, 0x0000205b⟩
def ISLTU : BitPat 32 := ⟨0xfe00707f, 0x0000305b⟩
def IXOR : BitPat 32 := ⟨0xfe00707f, 0x0000405b⟩
def ISRL : BitPat 32 := ⟨0xfe00707f, 0x0000505b⟩
def ISRA : BitPat 32 := ⟨0xfe00707f, 0x4000505b⟩
def IOR : BitPat 32 := ⟨0xfe00707f, 0x0000605b⟩
def IAND : BitPat 32 := ⟨0xfe00707f, 0x0000705b⟩
def IMADD : BitPat 32 := ⟨0x0600707f, 0x0200005b⟩
def IMSUB : BitPat 32 := ⟨0x0600707f, 0x0200105b⟩
def INMSUB : BitPat 32 := ⟨0x0600707f, 0x0200205b⟩
def INMADD : BitPat 32 := ⟨0x0600707f, 0x0200305b⟩
def IMUL : BitPat 32 := ⟨0xfe00707f, 0x0400005b⟩
def IMULH : BitPat 32 := ⟨0xfe00707f, 0x0400105b⟩
def IMULHSU : BitPat 32 := ⟨0xfe00707f, 0x0400205b⟩
def IMULHU : BitPat 32 := ⟨0xfe00707f, 0x0400305b⟩
def IANDN : BitPat 32 := ⟨0xfe00707f, 0x4000705b⟩
def IORN : BitPat 32 := ⟨0xfe00707f, 0x4000605b⟩
def IXNOR : BitPat 32 := ⟨0xfe00707f, 0x4000405b⟩
def ISLO : BitPat 32 := ⟨0xfe00707f, 0x2000105b⟩
def ISRO : BitPat 32 := ⟨0xfe00707f, 0x2000505b⟩
def IROL : BitPat 32 := ⟨0xfe00707f, 0x6000105b⟩
def IROR : BitPat 32 := ⟨0xfe00707f, 0x6000505b⟩
def ISBCLR : BitPat 32 := ⟨0xfe00707f, 0x4800105b⟩
def ISBSET : BitPat 32 := ⟨0xfe00707f, 0x2800105b⟩
def ISBINV : BitPat 32 := ⟨0xfe00707f, 0x6800105b⟩
def ISBEXT : BitPat 32 := ⟨0xfe00707f, 0x4800505b⟩
def IGORC : BitPat 32 := ⟨0xfe00707f, 0x2800505b⟩
def IGREV : BitPat 32 := ⟨0xfe00707f, 0x6800505b⟩
def ISLOI : BitPat 32 := ⟨0xfc00707f, 0x2000107b⟩
def ISROI : BitPat 32 := ⟨0xfc00707f, 0x2000507b⟩
def IRORI : BitPat 32 := ⟨0xfc00707f, 0x6000507b⟩
def ISBCLRI : BitPat 32 := ⟨0xfc00707f, 0x4800107b⟩
def ISBSETI : BitPat 32 := ⟨0xfc00707f, 0x2800107b⟩
def ISBINVI : BitPat 32 := ⟨0xfc00707f, 0x6800107b⟩
def ISBEXTI : BitPat 32 := ⟨0xfc00707f, 0x4800507b⟩
def IGORCI : BitPat 32 := ⟨0xfc00707f, 0x2800507b⟩
def IGREVI : BitPat 32 := ⟨0xfc00707f, 0x6800507b⟩
def ICLZ : BitPat 32 := ⟨0xfff0707f, 0x6000205b⟩
def ICTZ : BitPat 32 := ⟨0xfff0707f, 0x6010205b⟩
def IPCNT : BitPat 32 := ⟨0xfff0707f, 0x6020205b⟩
def ISEXT_B : BitPat 32 := ⟨0xfff0707f, 0x6040205b⟩
def ISEXT_H : BitPat 32 := ⟨0xfff0707f, 0x6050205b⟩
def ICRC32_B : BitPat 32 := ⟨0xfff0707f, 0x6100105b⟩
def ICRC32_H : BitPat 32 := ⟨0xfff0707f, 0x6110105b⟩
def ICRC32_W : BitPat 32 := ⟨0xfff0707f, 0x6120105b⟩
def ICRC32C_B : BitPat 32 := ⟨0xfff0707f, 0x6180105b⟩
def ICRC32C_H : BitPat 32 := ⟨0xfff0707f, 0x6190105b⟩
def ICRC32C_W : BitPat 32 := ⟨0xfff0707f, 0x61a0105b⟩
def ICLMUL : BitPat 32 := ⟨0xfe00707f, 0x0a00105b⟩
def ICLMULR : BitPat 32 := ⟨0xfe00707f, 0x0a00205b⟩
def ICLMULH : BitPat 32 := ⟨0xfe00707f, 0x0a00305b⟩
def IMIN : BitPat 32 := ⟨0xfe00707f, 0x0a00405b⟩
def IMAX : BitPat 32 := ⟨0xfe00707f, 0x0a00505b⟩
def IMINU : BitPat 32 := ⟨0xfe00707f, 0x0a00605b⟩
def IMAXU : BitPat 32 := ⟨0xfe00707f, 0x0a00705b⟩
def ISHFL : BitPat 32 := ⟨0xfe00707f, 0x0800105b⟩
def IUNSHFL : BitPat 32 := ⟨0xfe00707f, 0x0800505b⟩
def IBEXT : BitPat 32 := ⟨0xfe00707f, 0x0800605b⟩
def IBDEP : BitPat 32 := ⟨0xfe00707f, 0x4800605b⟩
def IPACK : BitPat 32 := ⟨0xfe00707f, 0x0800405b⟩
def IPACKU : BitPat 32 := ⟨0xfe00707f, 0x4800405b⟩
def IPACKH : BitPat 32 := ⟨0xfe00707f, 0x0800705b⟩
def IBFP : BitPat 32 := ⟨0xfe00707f, 0x4800705b⟩
def IMV_X_W : BitPat 32 := ⟨0xfff0707f, 0xe000005b⟩
def IMV_W_X : BitPat 32 := ⟨0xfff0707f, 0xf000005b⟩
def IREP : BitPat 32 := ⟨0x0000007f, 0x0000003f⟩
def FADD_S : BitPat 32 := ⟨0xfe00007f, 0x00000053⟩
def FSUB_S : BitPat 32 := ⟨0xfe00007f, 0x08000053⟩
def FMUL_S : BitPat 32 := ⟨0xfe00007f, 0x10000053⟩
def FDIV_S : BitPat 32 := ⟨0xfe00007f, 0x18000053⟩
def FSGNJ_S : BitPat 32 := ⟨0xfe00707f, 0x20000053⟩
def FSGNJN_S : BitPat 32 := ⟨0xfe00707f, 0x20001053⟩
def FSGNJX_S : BitPat 32 := ⟨0xfe00707f, 0x20002053⟩
def FMIN_S : BitPat 32 := ⟨0xfe00707f, 0x28000053⟩
def FMAX_S : BitPat 32 := ⟨0xfe00707f, 0x28001053⟩
def FSQRT_S : BitPat 32 := ⟨0xfff0007f, 0x58000053⟩
def FMADD_S : BitPat 32 := ⟨0x0600007f, 0x00000043⟩
def FMSUB_S : BitPat 32 := ⟨0x0600007f, 0x00000047⟩
def FNMSUB_S : BitPat 32 := ⟨0x0600007f, 0x0000004b⟩
def FNMADD_S : BitPat 32 := ⟨0x0600007f, 0x0000004f⟩
def VFADD_S : BitPat 32 := ⟨0xfe00707f, 0x82000033⟩
def VFADD_R_S : BitPat 32 := ⟨0xfe00707f, 0x82004033⟩
def VFSUB_S : BitPat 32 := ⟨0xfe00707f, 0x84000033⟩
def VFSUB_R_S : BitPat 32 := ⟨0xfe00707f, 0x84004033⟩
def VFMUL_S : BitPat 32 := ⟨0xfe00707f, 0x86000033⟩
def VFMUL_R_S : BitPat 32 := ⟨0xfe00707f, 0x86004033⟩
def VFDIV_S : BitPat 32 := ⟨0xfe00707f, 0x88000033⟩
def VFDIV_R_S : BitPat 32 := ⟨0xfe00707f, 0x88004033⟩
def VFMIN_S : BitPat 32 := ⟨0xfe00707f, 0x8a000033⟩
def VFMIN_R_S : BitPat 32 := ⟨0xfe00707f, 0x8a004033⟩
def VFMAX_S : BitPat 32 := ⟨0xfe00707f, 0x8c000033⟩
def VFMAX_R_S : BitPat 32 := ⟨0xfe00707f, 0x8c004033⟩
def VFSQRT_S : BitPat 32 := ⟨0xfff0707f, 0x8e000033⟩
def VFMAC_S : BitPat 32 := ⟨0xfe00707f, 0x90000033⟩
def VFMAC_R_S : BitPat 32 := ⟨0xfe00707f, 0x90004033⟩
def VFMRE_S : BitPat 32 := ⟨0xfe00707f, 0x92000033⟩
def VFMRE_R_S : BitPat 32 := ⟨0xfe00707f, 0x92004033⟩
def VFSGNJ_S : BitPat 32 := ⟨0xfe00707f, 0x9a000033⟩
def VFSGNJ_R_S : BitPat 32 := ⟨0xfe00707f, 0x9a004033⟩
def VFSGNJN_S : BitPat 32 := ⟨0xfe00707f, 0x9c000033⟩
def VFSGNJN_R_S : BitPat 32 := ⟨0xfe00707f, 0x9c004033⟩
def VFSGNJX_S : BitPat 32 := ⟨0xfe00707f, 0x9e000033⟩
def VFSGNJX_R_S : BitPat 32 := ⟨0xfe00707f, 0x9e004033⟩
def VFCPKA_S_S : BitPat 32 := ⟨0xfe00707f, 0xb0000033⟩
def VFCPKA_S_D : BitPat 32 := ⟨0xfe00707f, 0xb4000033⟩
def VFSUM_S : BitPat 32 := ⟨0xfff0707f, 0x8fc00033⟩
def VFNSUM_S : BitPat 32 := ⟨0xfff0707f, 0xafc00033⟩
def FADD_D : BitPat 32 := ⟨0xfe00007f, 0x02000053⟩
def FSUB_D : BitPat 32 := ⟨0xfe00007f, 0x0a000053⟩
def FMUL_D : BitPat 32 := ⟨0xfe00007f, 0x12000053⟩
def FDIV_D : BitPat 32 := ⟨0xfe00007f, 0x1a000053⟩
def FSGNJ_D : BitPat 32 := ⟨0xfe00707f, 0x22000053⟩
def FSGNJN_D : BitPat 32 := ⟨0xfe00707f, 0x22001053⟩
def FSGNJX_D : BitPat 32 := ⟨0xfe00707f, 0x22002053⟩
def FMIN_D : BitPat 32 := ⟨0xfe00707f, 0x2a000053⟩
def FMAX_D : BitPat 32 := ⟨0xfe00707f, 0x2a001053⟩
def FSQRT_D : BitPat 32 := ⟨0xfff0007f, 0x5a000053⟩
def FMADD_D : BitPat 32 := ⟨0x0600007f, 0x02000043⟩
def FMSUB_D : BitPat 32 := ⟨0x0600007f, 0x02000047⟩
def FNMSUB_D : BitPat 32 := ⟨0x0600007f, 0x0200004b⟩
def FNMADD_D : BitPat 32 := ⟨0x0600007f, 0x0200004f⟩
def FCVT_S_D : BitPat 32 := ⟨0xfff0007f, 0x40100053⟩
def FCVT_D_S : BitPat 32 := ⟨0xfff0007f, 0x42000053⟩
def FADD_H : BitPat 32 := ⟨0xfe00007f, 0x04000053⟩
def FSUB_H : BitPat 32 := ⟨0xfe00007f, 0x0c000053⟩
def FMUL_H : BitPat 32 := ⟨0xfe00007f, 0x14000053⟩
def FDIV_H : BitPat 32 := ⟨0xfe00007f, 0x1c000053⟩
def FSQRT_H : BitPat 32 := ⟨0xfff0007f, 0x5c000053⟩
def FMADD_H : BitPat 32 := ⟨0x0600007f, 0x04000043⟩
def FMSUB_H : BitPat 32 := ⟨0x0600007f, 0x04000047⟩
def FNMSUB_H : BitPat 32 := ⟨0x0600007f, 0x0400004b⟩
def FNMADD_H : BitPat 32 := ⟨0x0600007f, 0x0400004f⟩
def FSGNJ_H : BitPat 32 := ⟨0xfe00707f, 0x24000053⟩
def FSGNJN_H : BitPat 32 := ⟨0xfe00707f, 0x24001053⟩
def FSGNJX_H : BitPat 32 := ⟨0xfe00707f, 0x24002053⟩
def FMIN_H : BitPat 32 := ⟨0xfe00707f, 0x2c000053⟩
def FMAX_H : BitPat 32 := ⟨0xfe00707f, 0x2c001053⟩
def FMACEX_S_H : BitPat 32 := ⟨0xfe00007f, 0x54000053⟩
def FMULEX_S_H : BitPat 32 := ⟨0xfe00007f, 0x4c000053⟩
def FCVT_S_H : BitPat 32 := ⟨0xfff0707f, 0x40200053⟩
def FCVT_H_S : BitPat 32 := ⟨0xfff0007f, 0x44000053⟩
def FCVT_D_H : BitPat 32 := ⟨0xfff0707f, 0x42200053⟩
def FCVT_H_D : BitPat 32 := ⟨0xfff0007f, 0x44100053⟩
def VFADD_H : BitPat 32 := ⟨0xfe00707f, 0x82002033⟩
def VFADD_R_H : BitPat 32 := ⟨0xfe00707f, 0x82006033⟩
def VFSUB_H : BitPat 32 := ⟨0xfe00707f, 0x84002033⟩
def VFSUB_R_H : BitPat 32 := ⟨0xfe00707f, 0x84006033⟩
def VFMUL_H : BitPat 32 := ⟨0xfe00707f, 0x86002033⟩
def VFMUL_R_H : BitPat 32 := ⟨0xfe00707f, 0x86006033⟩
def VFDIV_H : BitPat 32 := ⟨0xfe00707f, 0x88002033⟩
def VFDIV_R_H : BitPat 32 := ⟨0xfe00707f, 0x88006033⟩
def VFMIN_H : BitPat 32 := ⟨0xfe00707f, 0x8a002033⟩
def VFMIN_R_H : BitPat 32 := ⟨0xfe00707f, 0x8a006033⟩
def VFMAX_H : BitPat 32 := ⟨0xfe00707f, 0x8c002033⟩
def VFMAX_R_H : BitPat 32 := ⟨0xfe00707f, 0x8c006033⟩
def VFSQRT_H : BitPat 32 := ⟨0xfff0707f, 0x8e002033⟩
def VFMAC_H : BitPat 32 := ⟨0xfe00707f, 0x90002033⟩
def VFMAC_R_H : BitPat 32 := ⟨0xfe00707f, 0x90006033⟩
def VFMRE_H : BitPat 32 := ⟨0xfe00707f, 0x92002033⟩
def VFMRE_R_H : BitPat 32 := ⟨0xfe00707f, 0x92006033⟩
def VFSGNJ_H : BitPat 32 := ⟨0xfe00707f, 0x9a002033⟩
def VFSGNJ_R_H : BitPat 32 := ⟨0xfe00707f, 0x9a006033⟩
def VFSGNJN_H : BitPat 32 := ⟨0xfe00707f, 0x9c002033⟩
def VFSGNJN_R_H : BitPat 32 := ⟨0xfe00707f, 0x9c006033⟩
def VFSGNJX_H : BitPat 32 := ⟨0xfe00707f, 0x9e002033⟩
def VFSGNJX_R_H : BitPat 32 := ⟨0xfe00707f, 0x9e006033⟩
def VFSUM_H : BitPat 32 := ⟨0xfff0707f, 0x8fe02033⟩
def VFNSUM_H : BitPat 32 := ⟨0xfff0707f, 0xafe02033⟩
def VFCVT_D_S : BitPat 32 := ⟨0xfff0707f, 0x98401033⟩
def VFCVTU_D_S : BitPat 32 := ⟨0xfff0707f, 0x98405033⟩
def VFCPKA_H_S : BitPat 32 := ⟨0xfe00707f, 0xb0002033⟩
def VFCPKB_H_S : BitPat 32 := ⟨0xfe00707f, 0xb0006033⟩
def VFCVT_H_S : BitPat 32 := ⟨0xfff0707f, 0x98402033⟩
def VFCVTU_H_S : BitPat 32 := ⟨0xfff0707f, 0x98406033⟩
def VFCVT_S_H : BitPat 32 := ⟨0xfff0707f, 0x98600033⟩
def VFCVTU_S_H : BitPat 32 := ⟨0xfff0707f, 0x98604033⟩
def VFCPKA_H_D : BitPat 32 := ⟨0xfe00707f, 0xb4002033⟩
def VFCPKB_H_D : BitPat 32 := ⟨0xfe00707f, 0xb4006033⟩
def VFCVT_H_H : BitPat 32 := ⟨0xfff0707f, 0x98502033⟩
def VFCVTU_H_H : BitPat 32 := ⟨0xfff0707f, 0x98506033⟩
def VFDOTPEX_S_H : BitPat 32 := ⟨0xfe00707f, 0x96000033⟩
def VFDOTPEX_S_R_H : BitPat 32 := ⟨0xfe00707f, 0x96004033⟩
def VFNDOTPEX_S_H : BitPat 32 := ⟨0xfe00707f, 0xba000033⟩
def VFNDOTPEX_S_R_H : BitPat 32 := ⟨0xfe00707f, 0xba004033⟩
def VFSUMEX_S_H : BitPat 32 := ⟨0xfff0707f, 0x8f600033⟩
def VFNSUMEX_S_H : BitPat 32 := ⟨0xfff0707f, 0xaf600033⟩
def FADD_B : BitPat 32 := ⟨0xfe00007f, 0x06000053⟩
def FSUB_B : BitPat 32 := ⟨0xfe00007f, 0x0e000053⟩
def FMUL_B : BitPat 32 := ⟨0xfe00007f, 0x16000053⟩
def FSGNJ_B : BitPat 32 := ⟨0xfe00707f, 0x26000053⟩
def FSGNJN_B : BitPat 32 := ⟨0xfe00707f, 0x26001053⟩
def FSGNJX_B : BitPat 32 := ⟨0xfe00707f, 0x26002053⟩
def FMIN_B : BitPat 32 := ⟨0xfe00707f, 0x2e000053⟩
def FMAX_B : BitPat 32 := ⟨0xfe00707f, 0x2e001053⟩
def FMADD_B : BitPat 32 := ⟨0x0600007f, 0x06000043⟩
def FMSUB_B : BitPat 32 := ⟨0x0600007f, 0x06000047⟩
def FNMSUB_B : BitPat 32 := ⟨0x0600007f, 0x0600004b⟩
def FNMADD_B : BitPat 32 := ⟨0x0600007f, 0x0600004f⟩
def FMACEX_S_B : BitPat 32 := ⟨0xfe00007f, 0x56000053⟩
def FMULEX_S_B : BitPat 32 := ⟨0xfe00007f, 0x4e000053⟩
def FCVT_S_B : BitPat 32 := ⟨0xfff0707f, 0x40300053⟩
def FCVT_B_S : BitPat 32 := ⟨0xfff0007f, 0x46000053⟩
def FCVT_D_B : BitPat 32 := ⟨0xfff0707f, 0x42300053⟩
def FCVT_B_D : BitPat 32 := ⟨0xfff0007f, 0x46100053⟩
def FCVT_H_B : BitPat 32 := ⟨0xfff0707f, 0x44300053⟩
def FCVT_B_H : BitPat 32 := ⟨0xfff0007f, 0x46200053⟩
def VFADD_B : BitPat 32 := ⟨0xfe00707f, 0x82003033⟩
def VFADD_R_B : BitPat 32 := ⟨0xfe00707f, 0x82007033⟩
def VFSUB_B : BitPat 32 := ⟨0xfe00707f, 0x84003033⟩
def VFSUB_R_B : BitPat 32 := ⟨0xfe00707f, 0x84007033⟩
def VFMUL_B : BitPat 32 := ⟨0xfe00707f, 0x86003033⟩
def VFMUL_R_B : BitPat 32 := ⟨0xfe00707f, 0x86007033⟩
def VFDIV_B : BitPat 32 := ⟨0xfe00707f, 0x88003033⟩
def VFDIV_R_B : BitPat 32 := ⟨0xfe00707f, 0x88007033⟩
def VFMIN_B : BitPat 32 := ⟨0xfe00707f, 0x8a003033⟩
def VFMIN_R_B : BitPat 32 := ⟨0xfe00707f, 0x8a007033⟩
def VFMAX_B : BitPat 32 := ⟨0xfe00707f, 0x8c003033⟩
def VFMAX_R_B : BitPat 32 := ⟨0xfe00707f, 0x8c007033⟩
def VFSQRT_B : BitPat 32 := ⟨0xfff0707f, 0x8e003033⟩
def VFMAC_B : BitPat 32 := ⟨0xfe00707f, 0x90003033⟩
def VFMAC_R_B : BitPat 32 := ⟨0xfe00707f, 0x90007033⟩
def VFMRE_B : BitPat 32 := ⟨0xfe00707f, 0x92003033⟩
def VFMRE_R_B : BitPat 32 := ⟨0xfe00707f, 0x92007033⟩
def VFSGNJ_B : BitPat 32 := ⟨0xfe00707f, 0x9a003033⟩
def VFSGNJ_R_B : BitPat 32 := ⟨0xfe00707f, 0x9a007033⟩
def VFSGNJN_B : BitPat 32 := ⟨0xfe00707f, 0x9c003033⟩
def VFSGNJN_R_B : BitPat 32 := ⟨0xfe00707f, 0x9c007033⟩
def VFSGNJX_B : BitPat 32 := ⟨0xfe00707f, 0x9e003033⟩
def VFSGNJX_R_B : BitPat 32 := ⟨0xfe00707f, 0x9e007033⟩
def VFSUM_B : BitPat 32 := ⟨0xfff0707f, 0x8e703033⟩
def VFNSUM_B : BitPat 32 := ⟨0xfff0707f, 0xae703033⟩
def VFCVT_B_S : BitPat 32 := ⟨0xfff0707f, 0x98403033⟩
def VFCVTU_B_S : BitPat 32 := ⟨0xfff0707f, 0x98407033⟩
def VFCPKA_B_S : BitPat 32 := ⟨0xfe00707f, 0xb0003033⟩
def VFCPKB_B_S : BitPat 32 := ⟨0xfe00707f, 0xb0007033⟩
def VFCPKC_B_S : BitPat 32 := ⟨0xfe00707f, 0xb2003033⟩
def VFCPKD_B_S : BitPat 32 := ⟨0xfe00707f, 0xb2007033⟩
def VFCVT_S_B : BitPat 32 := ⟨0xfff0707f, 0x98700033⟩
def VFCVTU_S_B : BitPat 32 := ⟨0xfff0707f, 0x98704033⟩
def VFCPKA_B_D : BitPat 32 := ⟨0xfe00707f, 0xb4003033⟩
def VFCPKB_B_D : BitPat 32 := ⟨0xfe00707f, 0xb4007033⟩
def VFCPKC_B_D : BitPat 32 := ⟨0xfe00707f, 0xb6003033⟩
def VFCPKD_B_D : BitPat 32 := ⟨0xfe00707f, 0xb6007033⟩
def VFCVT_B_H : BitPat 32 := ⟨0xfff0707f, 0x98603033⟩
def VFCVTU_B_H : BitPat 32 := ⟨0xfff0707f, 0x98607033⟩
def VFCVT_H_B : BitPat 32 := ⟨0xfff0707f, 0x98702033⟩
def VFCVTU_H_B : BitPat 32 := ⟨0xfff0707f, 0x98706033⟩
def VFCVT_B_B : BitPat 32 := ⟨0xfff0707f, 0x98703033⟩
def VFCVTU_B_B : BitPat 32 := ⟨0xfff0707f, 0x98707033⟩
def VFDOTPEX_H_B : BitPat 32 := ⟨0xfe00707f, 0x96002033⟩
def VFDOTPEX_H_R_B : BitPat 32 := ⟨0xfe00707f, 0x96006033⟩
def VFNDOTPEX_H_B : BitPat 32 := ⟨0xfe00707f, 0xba002033⟩
def VFNDOTPEX_H_R_B : BitPat 32 := ⟨0xfe00707f, 0xba006033⟩
def VFSUMEX_H_B : BitPat 32 := ⟨0xfff0707f, 0x8f702033⟩
def VFNSUMEX_H_B : BitPat 32 := ⟨0xfff0707f, 0xaf702033⟩
def FLE_D : BitPat 32 := ⟨0xfe00707f, 0xa2000053⟩
def FLT_D : BitPat 32 := ⟨0xfe00707f, 0xa2001053⟩
def FEQ_D : BitPat 32 := ⟨0xfe00707f, 0xa2002053⟩
def FCLASS_D : BitPat 32 := ⟨0xfff0707f, 0xe2001053⟩
def FCVT_W_D : BitPat 32 := ⟨0xfff0007f, 0xc2000053⟩
def FCVT_WU_D : BitPat 32 := ⟨0xfff0007f, 0xc2100053⟩
def FLT_D_COPIFT : BitPat 32 := ⟨0xfe00707f, 0xa200102b⟩
def FLE_S : BitPat 32 := ⟨0xfe00707f, 0xa0000053⟩
def FLT_S : BitPat 32 := ⟨0xfe00707f, 0xa0001053⟩
def FEQ_S : BitPat 32 := ⟨0xfe00707f, 0xa0002053⟩
def FCLASS_S : BitPat 32 := ⟨0xfff0707f, 0xe0001053⟩
def FCVT_W_S : BitPat 32 := ⟨0xfff0007f, 0xc0000053⟩
def FCVT_WU_S : BitPat 32 := ⟨0xfff0007f, 0xc0100053⟩
def FMV_X_W : BitPat 32 := ⟨0xfff0707f, 0xe0000053⟩
def VFEQ_S : BitPat 32 := ⟨0xfe00707f, 0xa0000033⟩
def VFEQ_R_S : BitPat 32 := ⟨0xfe00707f, 0xa0004033⟩
def VFNE_S : BitPat 32 := ⟨0xfe00707f, 0xa2000033⟩
def VFNE_R_S : BitPat 32 := ⟨0xfe00707f, 0xa2004033⟩
def VFLT_S : BitPat 32 := ⟨0xfe00707f, 0xa4000033⟩
def VFLT_R_S : BitPat 32 := ⟨0xfe00707f, 0xa4004033⟩
def VFGE_S : BitPat 32 := ⟨0xfe00707f, 0xa6000033⟩
def VFGE_R_S : BitPat 32 := ⟨0xfe00707f, 0xa6004033⟩
def VFLE_S : BitPat 32 := ⟨0xfe00707f, 0xa8000033⟩
def VFLE_R_S : BitPat 32 := ⟨0xfe00707f, 0xa8004033⟩
def VFGT_S : BitPat 32 := ⟨0xfe00707f, 0xaa000033⟩
def VFGT_R_S : BitPat 32 := ⟨0xfe00707f, 0xaa004033⟩
def VFCLASS_S : BitPat 32 := ⟨0xfff0707f, 0x98100033⟩
def FLE_H : BitPat 32 := ⟨0xfe00707f, 0xa4000053⟩
def FLT_H : BitPat 32 := ⟨0xfe00707f, 0xa4001053⟩
def FEQ_H : BitPat 32 := ⟨0xfe00707f, 0xa4002053⟩
def FCLASS_H : BitPat 32 := ⟨0xfff0707f, 0xe4001053⟩
def FCVT_W_H : BitPat 32 := ⟨0xfff0007f, 0xc4000053⟩
def FCVT_WU_H : BitPat 32 := ⟨0xfff0007f, 0xc4100053⟩
def FMV_X_H : BitPat 32 := ⟨0xfff0707f, 0xe4000053⟩
def VFEQ_H : BitPat 32 := ⟨0xfe00707f, 0xa0002033⟩
def VFEQ_R_H : BitPat 32 := ⟨0xfe00707f, 0xa0006033⟩
def VFNE_H : BitPat 32 := ⟨0xfe00707f, 0xa2002033⟩
def VFNE_R_H : BitPat 32 := ⟨0xfe00707f, 0xa2006033⟩
def VFLT_H : BitPat 32 := ⟨0xfe00707f, 0xa4002033⟩
def VFLT_R_H : BitPat 32 := ⟨0xfe00707f, 0xa4006033⟩
def VFGE_H : BitPat 32 := ⟨0xfe00707f, 0xa6002033⟩
def VFGE_R_H : BitPat 32 := ⟨0xfe00707f, 0xa6006033⟩
def VFLE_H : BitPat 32 := ⟨0xfe00707f, 0xa8002033⟩
def VFLE_R_H : BitPat 32 := ⟨0xfe00707f, 0xa8006033⟩
def VFGT_H : BitPat 32 := ⟨0xfe00707f, 0xaa002033⟩
def VFGT_R_H : BitPat 32 := ⟨0xfe00707f, 0xaa006033⟩
def VFCLASS_H : BitPat 32 := ⟨0xfff0707f, 0x98102033⟩
def VFMV_X_H : BitPat 32 := ⟨0xfff0707f, 0x98002033⟩
def VFCVT_X_H : BitPat 32 := ⟨0xfff0707f, 0x98202033⟩
def VFCVT_XU_H : BitPat 32 := ⟨0xfff0707f, 0x98206033⟩
def FLE_B : BitPat 32 := ⟨0xfe00707f, 0xa6000053⟩
def FLT_B : BitPat 32 := ⟨0xfe00707f, 0xa6001053⟩
def FEQ_B : BitPat 32 := ⟨0xfe00707f, 0xa6002053⟩
def FCLASS_B : BitPat 32 := ⟨0xfff0707f, 0xe6001053⟩
def FCVT_W_B : BitPat 32 := ⟨0xfff0007f, 0xc6000053⟩
def FCVT_WU_B : BitPat 32 := ⟨0xfff0007f, 0xc6100053⟩
def FMV_X_B : BitPat 32 := ⟨0xfff0707f, 0xe6000053⟩
def VFEQ_B : BitPat 32 := ⟨0xfe00707f, 0xa0003033⟩
def VFEQ_R_B : BitPat 32 := ⟨0xfe00707f, 0xa0007033⟩
def VFNE_B : BitPat 32 := ⟨0xfe00707f, 0xa2003033⟩
def VFNE_R_B : BitPat 32 := ⟨0xfe00707f, 0xa2007033⟩
def VFLT_B : BitPat 32 := ⟨0xfe00707f, 0xa4003033⟩
def VFLT_R_B : BitPat 32 := ⟨0xfe00707f, 0xa4007033⟩
def VFGE_B : BitPat 32 := ⟨0xfe00707f, 0xa6003033⟩
def VFGE_R_B : BitPat 32 := ⟨0xfe00707f, 0xa6007033⟩
def VFLE_B : BitPat 32 := ⟨0xfe00707f, 0xa8003033⟩
def VFLE_R_B : BitPat 32 := ⟨0xfe00707f, 0xa8007033⟩
def VFGT_B : BitPat 32 := ⟨0xfe00707f, 0xaa003033⟩
def VFGT_R_B : BitPat 32 := ⟨0xfe00707f, 0xaa007033⟩
def VFMV_X_B : BitPat 32 := ⟨0xfff0707f, 0x98003033⟩
def VFCLASS_B : BitPat 32 := ⟨0xfff0707f, 0x98103033⟩
def VFCVT_X_B : BitPat 32 := ⟨0xfff0707f, 0x98203033⟩
def VFCVT_XU_B : BitPat 32 := ⟨0xfff0707f, 0x98207033⟩
def FCVT_D_W : BitPat 32 := ⟨0xfff0007f, 0xd2000053⟩
def FCVT_D_WU : BitPat 32 := ⟨0xfff0007f, 0xd2100053⟩
def FCVT_D_W_COPIFT : BitPat 32 := ⟨0xfff0007f, 0xd200002b⟩
def FCVT_D_WU_COPIFT : BitPat 32 := ⟨0xfff0007f, 0xd210002b⟩
def FMV_W_X : BitPat 32 := ⟨0xfff0707f, 0xf0000053⟩
def FCVT_S_W : BitPat 32 := ⟨0xfff0007f, 0xd0000053⟩
def FCVT_S_WU : BitPat 32 := ⟨0xfff0007f, 0xd0100053⟩
def FMV_H_X : BitPat 32 := ⟨0xfff0707f, 0xf4000053⟩
def FCVT_H_W : BitPat 32 := ⟨0xfff0007f, 0xd4000053⟩
def FCVT_H_WU : BitPat 32 := ⟨0xfff0007f, 0xd4100053⟩
def VFMV_H_X : BitPat 32 := ⟨0xfff0707f, 0x98006033⟩
def VFCVT_H_X : BitPat 32 := ⟨0xfff0707f, 0x98302033⟩
def VFCVT_H_XU : BitPat 32 := ⟨0xfff0707f, 0x98306033⟩
def FMV_B_X : BitPat 32 := ⟨0xfff0707f, 0xf6000053⟩
def FCVT_B_W : BitPat 32 := ⟨0xfff0007f, 0xd6000053⟩
def FCVT_B_WU : BitPat 32 := ⟨0xfff0007f, 0xd6100053⟩
def VFMV_B_X : BitPat 32 := ⟨0xfff0707f, 0x98007033⟩
def VFCVT_B_X : BitPat 32 := ⟨0xfff0707f, 0x98303033⟩
def VFCVT_B_XU : BitPat 32 := ⟨0xfff0707f, 0x98307033⟩
def FREP_O : BitPat 32 := ⟨0x000000ff, 0x0000008b⟩
def FLW : BitPat 32 := ⟨0x0000707f, 0x00002007⟩
def FSW : BitPat 32 := ⟨0x0000707f, 0x00002027⟩
def FLD : BitPat 32 := ⟨0x0000707f, 0x00003007⟩
def FSD : BitPat 32 := ⟨0x0000707f, 0x00003027⟩
def FLH : BitPat 32 := ⟨0x0000707f, 0x00001007⟩
def FSH : BitPat 32 := ⟨0x0000707f, 0x00001027⟩
def FLB : BitPat 32 := ⟨0x0000707f, 0x00000007⟩
def FSB : BitPat 32 := ⟨0x0000707f, 0x00000027⟩
def DMSRC : BitPat 32 := ⟨0xfe007fff, 0x0000002b⟩
def DMDST : BitPat 32 := ⟨0xfe007fff, 0x0200002b⟩
def DMSTR : BitPat 32 := ⟨0xfe007fff, 0x0c00002b⟩
def DMCPYI : BitPat 32 := ⟨0xfe00707f, 0x0400002b⟩
def DMCPY : BitPat 32 := ⟨0xfe00707f, 0x0600002b⟩
def DMSTATI : BitPat 32 := ⟨0xfe0ff07f, 0x0800002b⟩
def DMSTAT : BitPat 32 := ⟨0xfe0ff07f, 0x0a00002b⟩
def DMREP : BitPat 32 := ⟨0xfff07fff, 0x0e00002b⟩
def DMMCAST : BitPat 32 := ⟨0xfff07fff, 0x1000002b⟩
def SCFGRI : BitPat 32 := ⟨0x000ff07f, 0x0000102b⟩
def SCFGWI : BitPat 32 := ⟨0x00007fff, 0x0000202b⟩
def SCFGR : BitPat 32 := ⟨0xfe0ff07f, 0x0000902b⟩
def SCFGW : BitPat 32 := ⟨0xfe007fff, 0x000020ab⟩

/-! ## CSR addresses -/

def CSR_MISA : BitVec 12 := 0x301
def CSR_MHARTID : BitVec 12 := 0xf14
def CSR_DCSR : BitVec 12 := 0x7b0
def CSR_DPC : BitVec 12 := 0x7b1
def CSR_DSCRATCH0 : BitVec 12 := 0x7b2
def CSR_MSTATUS : BitVec 12 := 0x300
def CSR_MEPC : BitVec 12 := 0x341
def CSR_MIP : BitVec 12 := 0x344
def CSR_MIE : BitVec 12 := 0x304
def CSR_MCAUSE : BitVec 12 := 0x342
def CSR_MTVAL : BitVec 12 := 0x343
def CSR_MTVEC : BitVec 12 := 0x305
def CSR_MSCRATCH : BitVec 12 := 0x340
def CSR_MEDELEG : BitVec 12 := 0x302
def CSR_SSTATUS : BitVec 12 := 0x100
def CSR_SSCRATCH : BitVec 12 := 0x140
def CSR_SEPC : BitVec 12 := 0x141
def CSR_SIP : BitVec 12 := 0x144
def CSR_SIE : BitVec 12 := 0x104
def CSR_SCAUSE : BitVec 12 := 0x142
def CSR_STVAL : BitVec 12 := 0x143
def CSR_STVEC : BitVec 12 := 0x105
def CSR_SATP : BitVec 12 := 0x180
def CSR_FFLAGS : BitVec 12 := 0x001
def CSR_FRM : BitVec 12 := 0x002
def CSR_FMODE : BitVec 12 := 0x800
def CSR_FCSR : BitVec 12 := 0x003
def CSR_BARRIER : BitVec 12 := 0x7c2
def CSR_MCAST : BitVec 12 := 0x7c4
def CSR_SC : BitVec 12 := 0x7c3
def CSR_SSR : BitVec 12 := 0x7c0
def CsrMseg : BitVec 12 := 0xbc0

end SnitchCluster.Core.Instr
