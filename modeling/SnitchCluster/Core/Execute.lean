/-
# Core.Execute -- the core executes RV32I

An integer computation or jump goes through the decoder, the immediates, the operand
selection, the one adder and the one shifter, and the program counter logic.  Here each
is compared with the instruction set: the decoder arm of a word (`arm_of_decode`), the
arithmetic unit (`aluResult_fn`, `aluResult_cond`), and the cycle as a whole (`executes`).
-/
import SnitchCluster.Core.Pipeline
import SnitchCluster.Theory.Rv32i

namespace SnitchCluster.Core

open Theory
open Theory.BitPat
open Instr

/-! ## The decoder -/

def fnOp : Rv32i.Fn → AluOp
  | .add => .add
  | .sub => .sub
  | .sll => .sll
  | .slt => .slt
  | .sltu => .sltu
  | .xor => .lXor
  | .srl => .srl
  | .sra => .sra
  | .or => .lOr
  | .and => .lAnd

def condOp : Rv32i.Cond → AluOp
  | .eq => .eq
  | .ne => .neq
  | .lt => .slt
  | .ge => .ge
  | .ltu => .sltu
  | .geu => .geu

/-- The decoder arm of an instruction. -/
def armOf : Rv32i.Instr → Dec
  | .op f .. => { aluOp := fnOp f, opaSelect := .reg, opbSelect := .reg }
  | .opImm f .. => { aluOp := fnOp f, opaSelect := .reg, opbSelect := .iImmediate }
  | .lui .. => { rdSelect := .rdBypass, rdBypass := .uimm }
  | .auipc .. => { opaSelect := .uImmediate, opbSelect := .pc }
  | .jal .. => { rdSelect := .rdConsecPC, opaSelect := .jImmediate, opbSelect := .pc,
                 nextPc := .alu }
  | .jalr .. => { rdSelect := .rdConsecPC, opaSelect := .reg, opbSelect := .iImmediate,
                  nextPc := .alu, zeroLsb := true }
  | .branch c .. => Dec.branch (condOp c)

/-- No two arms of the computations, jumps and accesses share a word. -/
theorem baseArms_apart : ∀ a ∈ baseArms, ∀ p ∈ a.1, ∀ arm ∈ baseArms,
    arm = ([p], a.2) ∨ ∀ q ∈ arm.1, apart p q = true := by
  decide

/-- A word that meets the pattern of an arm decodes to it. -/
theorem decode_of_base (C : Cfg) (privLvl : PrivLvl) (debug : Bool) (fmode : FmtMode)
    {w : BitVec 32} {p : BitPat 32} {d : Dec} (member : ([p], d) ∈ baseArms)
    (met : p.test w = true) : decode C privLvl debug fmode w = d := by
  rw [decode, decoderArms]
  simp only [List.append_assoc]
  rw [firstMatch_front _ _ ⟨_, member, by simp [inside, met]⟩]
  exact firstMatch_apart member (baseArms_apart _ member p (by simp)) _ met

/-- The pattern of all words with some bits of the function fields and of the opcode. -/
def fieldPat (m7 v7 : BitVec 7) (m3 v3 : BitVec 3) (op : BitVec 7) : BitPat 32 :=
  ⟨m7 ++ (0 : BitVec 5) ++ (0 : BitVec 5) ++ m3 ++ (0 : BitVec 5) ++ BitVec.allOnes 7,
    v7 ++ (0 : BitVec 5) ++ (0 : BitVec 5) ++ v3 ++ (0 : BitVec 5) ++ op⟩

theorem test_fieldPat {w : BitVec 32} {m7 v7 : BitVec 7} {m3 v3 : BitVec 3} {op : BitVec 7}
    (f7 : Rv32i.funct7 w &&& m7 = v7) (f3 : Rv32i.funct3 w &&& m3 = v3)
    (code : Rv32i.opcode w = op) : (fieldPat m7 v7 m3 v3 op).test w = true := by
  have masked : ∀ a b c : BitVec 5, ((Rv32i.funct7 w ++ a ++ b ++ Rv32i.funct3 w ++ c ++
      Rv32i.opcode w) &&& (m7 ++ (0 : BitVec 5) ++ (0 : BitVec 5) ++ m3 ++ (0 : BitVec 5) ++
        BitVec.allOnes 7)) = v7 ++ (0 : BitVec 5) ++ (0 : BitVec 5) ++ v3 ++ (0 : BitVec 5) ++ op := by
    intro a b c
    simp only [BitVec.and_append, BitVec.and_allOnes, BitVec.ofNat_eq_ofNat, BitVec.and_zero, f7,
      f3, code]
  rw [fieldPat, BitPat.test, beq_iff_eq]
  conv_lhs => rw [Rv32i.word_eq_fields w]
  exact masked _ _ _

/-- A jump, or an instruction with an upper immediate. -/
theorem wide_arms :
    ([fieldPat 0 0 0 0 0b0110111], armOf (.lui 0 0)) ∈ baseArms ∧
      ([fieldPat 0 0 0 0 0b0010111], armOf (.auipc 0 0)) ∈ baseArms ∧
      ([fieldPat 0 0 0 0 0b1101111], armOf (.jal 0 0)) ∈ baseArms ∧
      ([fieldPat 0 0 7 0 0b1100111], armOf (.jalr 0 0 0)) ∈ baseArms := by
  decide

theorem cond_arms : ∀ f3 : BitVec 3, ∀ c ∈ (Rv32i.cond f3).toList,
    ([fieldPat 0 0 7 f3 0b1100011], armOf (.branch c 0 0 0)) ∈ baseArms := by
  decide

/-- The bits of `funct7` an immediate computation looks at. -/
def immMask (f : Rv32i.Fn) : BitVec 7 := if f.isShift then 0x7e else 0

theorem immFn_arms : ∀ (f7 : BitVec 7) (f3 : BitVec 3), ∀ f ∈ (Rv32i.immFn f7 f3).toList,
    ([fieldPat (immMask f) (f7 &&& immMask f) 7 f3 0b0010011], armOf (.opImm f 0 0 0)) ∈
      baseArms := by
  decide

theorem regFn_arms : ∀ (f7 : BitVec 7) (f3 : BitVec 3), ∀ f ∈ (Rv32i.regFn f7 f3).toList,
    ([fieldPat (BitVec.allOnes 7) f7 7 f3 0b0110011], armOf (.op f 0 0 0)) ∈ baseArms := by
  decide

/-- **The decoder agrees with the instruction set.** -/
theorem arm_of_decode (C : Cfg) (privLvl : PrivLvl) (debug : Bool) (fmode : FmtMode)
    {w : BitVec 32} {d : Rv32i.Instr} (word : Rv32i.decode w = some d) :
    decode C privLvl debug fmode w = armOf d := by
  have alone : ∀ {p : BitPat 32} {d : Dec}, ([p], d) ∈ baseArms → p.test w = true →
      decode C privLvl debug fmode w = d := decode_of_base C privLvl debug fmode
  obtain ⟨lui, auipc, jal, jalr⟩ := wide_arms
  unfold Rv32i.decode at word
  split at word
  · rename_i code
    obtain rfl := Option.some.inj word
    exact alone lui (test_fieldPat (by simp) (by simp) code)
  split at word
  · rename_i code
    obtain rfl := Option.some.inj word
    exact alone auipc (test_fieldPat (by simp) (by simp) code)
  split at word
  · rename_i code
    obtain rfl := Option.some.inj word
    exact alone jal (test_fieldPat (by simp) (by simp) code)
  split at word
  · rename_i code
    split at word
    · rename_i f3
      obtain rfl := Option.some.inj word
      exact alone jalr (test_fieldPat (by simp) (by rw [f3]; rfl) code)
    · contradiction
  split at word
  · rename_i code
    obtain ⟨c, found, rfl⟩ := Option.map_eq_some_iff.mp word
    exact alone (cond_arms _ c (by rw [found]; simp))
      (test_fieldPat (by simp) (BitVec.and_allOnes) code)
  split at word
  · rename_i code
    obtain ⟨f, found, rfl⟩ := Option.map_eq_some_iff.mp word
    exact alone (immFn_arms _ _ f (by rw [found]; simp))
      (test_fieldPat rfl (BitVec.and_allOnes) code)
  split at word
  · rename_i code
    obtain ⟨f, found, rfl⟩ := Option.map_eq_some_iff.mp word
    exact alone (regFn_arms _ _ f (by rw [found]; simp))
      (test_fieldPat (BitVec.and_allOnes) (BitVec.and_allOnes) code)
  · contradiction

/-! ## The arithmetic unit -/

section Alu

variable (a b : BitVec 32)

theorem shift_toNat : (b.extractLsb' 0 5).toNat = b.toNat % 32 := by
  simp

/-- The carry of a subtraction tells the smaller operand. -/
theorem borrow_signed : (a.signExtend 33 + -(b.signExtend 33)).msb = decide (a.toInt < b.toInt) := by
  rw [BitVec.msb_eq_toInt, ← BitVec.sub_eq_add_neg, BitVec.toInt_sub,
    BitVec.toInt_signExtend_of_le (by omega), BitVec.toInt_signExtend_of_le (by omega)]
  have ha := BitVec.toInt_lt (x := a)
  have la := BitVec.le_toInt a
  have hb := BitVec.toInt_lt (x := b)
  have lb := BitVec.le_toInt b
  rw [Int.bmod_eq_of_le (by omega) (by omega)]
  congr 1
  rw [eq_iff_iff]
  omega

theorem borrow_unsigned : (a.setWidth 33 + -(b.setWidth 33)).msb = decide (a.toNat < b.toNat) := by
  have ha := a.isLt
  have hb := b.isLt
  rw [BitVec.msb_eq_decide, BitVec.toNat_add, BitVec.toNat_neg, BitVec.toNat_setWidth,
    BitVec.toNat_setWidth]
  congr 1
  rw [eq_iff_iff]
  omega

/-- A word is the lower part of its extension. -/
theorem setWidth_signExtend : (a.signExtend 33).setWidth 32 = a := by
  apply BitVec.eq_of_getLsbD_eq
  intro k bound
  rw [BitVec.getLsbD_setWidth, BitVec.getLsbD_signExtend, if_pos bound]
  simp [bound, Nat.lt_succ_of_lt bound]

/-- The operands are equal exactly when their difference is zero. -/
theorem difference_zero : (a.signExtend 33 + -(b.signExtend 33) == 0) = decide (a = b) := by
  rw [Bool.eq_iff_iff, beq_iff_eq, decide_eq_true_iff, ← BitVec.sub_eq_add_neg]
  constructor
  · intro zero
    have same : a.signExtend 33 = b.signExtend 33 := by
      simpa [BitVec.sub_eq_iff_eq_add] using zero
    have low := congrArg (BitVec.setWidth 32) same
    rwa [setWidth_signExtend, setWidth_signExtend] at low
  · rintro rfl
    simp

theorem bit_eq (p : Prop) [Decidable p] : bit (decide p) = if p then 1 else 0 := by
  by_cases here : p <;> simp [bit, here]

/-! ### The shifter -/

/-- A right shift takes its bits from the left, and the sign beyond them. -/
theorem getLsbD_shiftRight (op : AluOp) (k : Nat) (bound : k < 32) :
    (shiftRightResult op a b).getLsbD k =
      if b.toNat % 32 + k < 32 then
        (if op = .sll then a.reverse else a).getLsbD (b.toNat % 32 + k)
      else (if op = .sll then a.reverse else a).msb && decide (op = .sra) := by
  have amount : b.toNat % 32 < 32 := Nat.mod_lt _ (by decide)
  have wide : ¬33 ≤ k := by omega
  simp only [shiftRightResult, shift_toNat]
  generalize (if op = .sll then a.reverse else a) = x
  rw [BitVec.getLsbD_setWidth, BitVec.getLsbD_sshiftRight, BitVec.getLsbD_append, BitVec.msb_append]
  by_cases inside : b.toNat % 32 + k < 32
  · have near : b.toNat % 32 + k < 33 := by omega
    simp [bound, inside, near, wide]
  · -- the bit shifted in, or a copy of it
    by_cases last : b.toNat % 32 + k < 33
    · have top : b.toNat % 32 + k = 32 := by omega
      simp [top, bound, wide]
    · simp [inside, last, bound, wide]

/-- **The arithmetic unit computes the functions of the instruction set.** -/
theorem aluResult_fn (f : Rv32i.Fn) : aluResult (fnOp f) a b = f.eval a b := by
  cases f with
  | add =>
    show (a.signExtend 33 + b.signExtend 33).setWidth 32 = a + b
    rw [BitVec.setWidth_add _ _ (by decide), setWidth_signExtend, setWidth_signExtend]
  | sub =>
    show (a.signExtend 33 + -(b.signExtend 33)).setWidth 32 = a - b
    rw [BitVec.setWidth_add _ _ (by decide), BitVec.setWidth_neg_of_le (by decide),
      setWidth_signExtend, setWidth_signExtend, BitVec.sub_eq_add_neg]
  | sll =>
    apply BitVec.eq_of_getLsbD_eq
    intro k bound
    show (shiftRightResult .sll a b).reverse.getLsbD k = _
    rw [BitVec.getLsbD_reverse, BitVec.getMsbD_eq_getLsbD,
      getLsbD_shiftRight a b .sll _ (by omega), Rv32i.Fn.eval, BitVec.getLsbD_shiftLeft]
    simp only [reduceIte, BitVec.getLsbD_reverse, BitVec.getMsbD_eq_getLsbD]
    grind
  | slt =>
    show bit (a.signExtend 33 + -(b.signExtend 33)).msb = _
    rw [borrow_signed, bit_eq]
    rfl
  | sltu =>
    show bit (a.setWidth 33 + -(b.setWidth 33)).msb = _
    rw [borrow_unsigned, bit_eq]
    rfl
  | xor => rfl
  | srl =>
    apply BitVec.eq_of_getLsbD_eq
    intro k bound
    show (shiftRightResult .srl a b).getLsbD k = (a >>> (b.toNat % 32)).getLsbD k
    rw [getLsbD_shiftRight a b .srl k bound, BitVec.getLsbD_ushiftRight]
    split
    · rfl
    · rename_i beyond
      have past : a.getLsbD (b.toNat % 32 + k) = false := BitVec.getLsbD_of_ge a _ (by omega)
      simp [past]
  | sra =>
    apply BitVec.eq_of_getLsbD_eq
    intro k bound
    show (shiftRightResult .sra a b).getLsbD k = (a.sshiftRight (b.toNat % 32)).getLsbD k
    rw [getLsbD_shiftRight a b .sra k bound, BitVec.getLsbD_sshiftRight]
    simp [bound]
  | or => rfl
  | and => rfl

theorem getLsbD_bit (p : Bool) : (bit p).getLsbD 0 = p := by
  cases p <;> rfl

/-- The lowest bit of the result of a comparison is its outcome. -/
theorem aluResult_cond (c : Rv32i.Cond) :
    (aluResult (condOp c) a b).getLsbD 0 = c.holds a b := by
  cases c with
  | eq =>
    show (bit (a.signExtend 33 + -(b.signExtend 33) == 0)).getLsbD 0 = _
    rw [getLsbD_bit, difference_zero]
    rfl
  | ne =>
    show (bit (!(a.signExtend 33 + -(b.signExtend 33) == 0))).getLsbD 0 = _
    rw [getLsbD_bit, difference_zero, ← decide_not]
    rfl
  | lt =>
    show (bit (a.signExtend 33 + -(b.signExtend 33)).msb).getLsbD 0 = _
    rw [getLsbD_bit, borrow_signed]
    rfl
  | ge =>
    show (bit (!(a.signExtend 33 + -(b.signExtend 33)).msb)).getLsbD 0 = _
    rw [getLsbD_bit, borrow_signed, ← decide_not]
    simp only [Int.not_lt]
    rfl
  | ltu =>
    show (bit (a.setWidth 33 + -(b.setWidth 33)).msb).getLsbD 0 = _
    rw [getLsbD_bit, borrow_unsigned]
    rfl
  | geu =>
    show (bit (!(a.setWidth 33 + -(b.setWidth 33)).msb)).getLsbD 0 = _
    rw [getLsbD_bit, borrow_unsigned, ← decide_not]
    simp only [Nat.not_lt]
    rfl

end Alu

/-! ## The cycle -/

/-- A register specifier of the core is the lower part of that of the word. -/
theorem setWidth_specifier (C : Cfg) (w : BitVec 32) (k : Nat) :
    (w.extractLsb' k 5).setWidth C.RegWidth = w.extractLsb' k C.RegWidth := by
  have few : C.RegWidth ≤ 5 := by
    rw [Cfg.RegWidth]
    split <;> decide
  apply BitVec.eq_of_getLsbD_eq
  intro j bound
  have low : j < 5 := by omega
  simp [bound, low]

namespace State

variable {C : Cfg} {P : LsuParts C} (s : State P) (i : Input C)

/-- The program counter and the register file as the instruction set sees them. -/
def hart : Rv32i.Hart C.RegWidth := ⟨s.pc, s.gpr⟩

/-- A result of an earlier load or offload is written to `r` in this cycle. -/
def lateWrite (r : BitVec C.RegWidth) : Prop :=
  s.retireI i = false ∧ ∃ v, s.gprWrite i = some (r, v)

/-- Debug mode is not entered in this cycle. -/
def undisturbed : Bool := s.debugQ || !(debugReq i || s.dcsrQ.step)

section Cycle

variable {s i} {d : Rv32i.Instr}

theorem hart_reg (zero : s.gpr 0 = 0) (r : BitVec 5) :
    s.hart.reg r = s.gpr (r.setWidth C.RegWidth) := by
  rw [Rv32i.Hart.reg, hart]
  split
  · rename_i none
    rw [none, zero]
  · rfl

theorem rs1_eq : rs1 (C := C) i = (Rv32i.rs1 i.instData).setWidth C.RegWidth :=
  (setWidth_specifier C i.instData 15).symm

theorem rs2_eq : rs2 (C := C) i = (Rv32i.rs2 i.instData).setWidth C.RegWidth :=
  (setWidth_specifier C i.instData 20).symm

theorem rd_eq : rd (C := C) i = (Rv32i.rd i.instData).setWidth C.RegWidth :=
  (setWidth_specifier C i.instData 7).symm

theorem dec_of_decode (word : Rv32i.decode i.instData = some d) : s.dec i = armOf d :=
  arm_of_decode C _ _ _ word

theorem validInstr_of_moves (moves : s.stall i = false) : s.validInstr i = true := by
  by_contra idle
  rw [Bool.not_eq_true] at idle
  rw [stall_of_not_valid idle] at moves
  contradiction

/-- An instruction with a destination other than register 0 takes the write port. -/
theorem retireI_of_moves (ordinary : s.exception i = false) (moves : s.stall i = false) :
    s.retireI i = ((s.dec i).writeRd && rd (C := C) i != 0) := by
  simp [retireI, writeRd, ordinary, validInstr_of_moves moves]

/-- The register write of an instruction with a destination. -/
theorem gprNext_of_write (ordinary : s.exception i = false) (moves : s.stall i = false)
    (writes : (s.dec i).writeRd = true) {r : BitVec C.RegWidth} (early : ¬s.lateWrite i r) :
    s.gprNext i r = s.hart.set (Rv32i.rd i.instData) (s.aluWriteback i) r := by
  have retires := retireI_of_moves ordinary moves
  rw [writes, Bool.true_and] at retires
  rw [gprNext, Rv32i.Hart.set, ← rd_eq]
  by_cases none : r = 0
  · rw [if_pos none, if_pos none]
  · rw [if_neg none, if_neg none]
    by_cases target : rd (C := C) i = 0
    · have idle : s.retireI i = false := by simp [retires, target]
      rw [target, if_neg none]
      rcases late : s.gprWrite i with _ | ⟨r', v⟩
      · rfl
      · have other : r ≠ r' := by
          rintro rfl
          exact early ⟨idle, v, late⟩
        exact if_neg other
    · have written : s.gprWrite i = some (rd i, s.aluWriteback i) := by
        rw [gprWrite, retires, if_pos (by simpa using target)]
      rw [written]
      rfl

/-- An instruction without a destination leaves the registers alone. -/
theorem gprNext_of_noWrite (zero : s.gpr 0 = 0) (writes : (s.dec i).writeRd = false)
    {r : BitVec C.RegWidth} (early : ¬s.lateWrite i r) : s.gprNext i r = s.gpr r := by
  have idle : s.retireI i = false := by simp [retireI, writeRd, writes]
  rw [gprNext]
  by_cases none : r = 0
  · rw [if_pos none, none, zero]
  · rw [if_neg none]
    rcases late : s.gprWrite i with _ | ⟨r', v⟩
    · rfl
    · have other : r ≠ r' := by
        rintro rfl
        exact early ⟨idle, v, late⟩
      exact if_neg other

/-- The program counter logic, for an instruction that moves on. -/
theorem npc_of_moves (ordinary : s.exception i = false) (moves : s.stall i = false) : s.npc i =
    match (s.dec i).nextPc with
    | .consec => s.consecPc i
    | .alu => if (s.dec i).zeroLsb then s.alu i &&& ~~~1 else s.alu i
    | .exception => s.trapVector
    | .mRet => s.csrs.epc.m
    | .sRet => s.csrs.epc.s
    | .dRet => s.dpcQ := by
  rw [npc, advance_eq, moves, nextPc, ordinary]
  rfl

theorem pcD_of_undisturbed (calm : s.debugQ = true → s.exception i = false)
    (moves : s.stall i = false) (alone : s.undisturbed i = true) : s.pcD i = s.npc i := by
  have stays : (!s.debugQ && (debugReq i || s.dcsrQ.step)) = false := by
    rw [undisturbed] at alone
    cases inDebug : s.debugQ with
    | true => rfl
    | false => simpa [inDebug] using alone
  have plain : (s.debugQ && s.nextPc i == .exception) = false := by
    cases inDebug : s.debugQ with
    | false => rfl
    | true =>
      rw [Bool.true_and, beq_eq_false_iff_ne, ne_eq, nextPc_eq_exception, calm inDebug]
      exact Bool.false_ne_true
  simp only [pcD, advance_eq, moves, plain, stays, Bool.not_false, if_true, if_false,
    Bool.false_eq_true]

theorem consecPc_of_noBranch (straight : (s.dec i).isBranch = false) :
    s.consecPc i = s.pc + 4 := by
  rw [consecPc, straight]
  rfl

/-- The ALU result of an instruction that computes on a register. -/
theorem alu_of_reg (zero : s.gpr 0 = 0) (left : (s.dec i).opaSelect = .reg) : s.alu i =
    aluResult (s.dec i).aluOp (s.hart.reg (Rv32i.rs1 i.instData)) (s.opb i) := by
  rw [alu, opa, left, hart_reg zero, ← rs1_eq]

theorem opb_of_reg (zero : s.gpr 0 = 0) (right : (s.dec i).opbSelect = .reg) :
    s.opb i = s.hart.reg (Rv32i.rs2 i.instData) := by
  rw [opb, right, hart_reg zero, ← rs2_eq]

theorem opb_of_iImmediate (right : (s.dec i).opbSelect = .iImmediate) :
    s.opb i = Rv32i.immI i.instData := by
  rw [opb, right]
  rfl

/-- What the core leaves of an instruction with a destination. -/
theorem executes_write (ordinary : s.exception i = false) (moves : s.stall i = false)
    (writes : (s.dec i).writeRd = true) {target value : BitVec 32} (next : s.npc i = target)
    (result : s.aluWriteback i = value) :
    s.npc i = target ∧ ∀ r, ¬s.lateWrite i r →
      s.gprNext i r = s.hart.set (Rv32i.rd i.instData) value r := by
  refine ⟨next, fun r early => ?_⟩
  rw [gprNext_of_write ordinary moves writes early, result]

/-- The program counter and the registers after an instruction. -/
theorem executes_instr (zero : s.gpr 0 = 0) (word : Rv32i.decode i.instData = some d)
    (ordinary : s.exception i = false) (moves : s.stall i = false) :
    s.npc i = (d.exec s.hart).pc ∧
      ∀ r, ¬s.lateWrite i r → s.gprNext i r = (d.exec s.hart).x r := by
  have arm := dec_of_decode (s := s) word
  have next := npc_of_moves ordinary moves
  have straight : (s.dec i).isBranch = false → s.consecPc i = s.pc + 4 := consecPc_of_noBranch
  have written : (s.dec i).writeRd = true → ∀ {target value : BitVec 32}, s.npc i = target →
      s.aluWriteback i = value → s.npc i = target ∧ ∀ r, ¬s.lateWrite i r →
        s.gprNext i r = s.hart.set (Rv32i.rd i.instData) value r :=
    fun writes _ _ => executes_write ordinary moves writes
  rw [arm] at next straight written
  cases Rv32i.reads_of_decode word with
  | op f =>
    apply written rfl
    · rw [next]
      exact straight rfl
    · rw [aluWriteback, arm]
      show s.alu i = _
      rw [alu_of_reg zero (by rw [arm]; rfl), opb_of_reg zero (by rw [arm]; rfl), arm]
      exact aluResult_fn _ _ f
  | opImm f =>
    apply written rfl
    · rw [next]
      exact straight rfl
    · rw [aluWriteback, arm]
      show s.alu i = f.eval _ (if f.isShift then _ else _)
      rw [alu_of_reg zero (by rw [arm]; rfl), opb_of_iImmediate (by rw [arm]; rfl), arm]
      refine (aluResult_fn _ _ f).trans ?_
      split
      · rename_i shift
        exact Rv32i.Fn.eval_shift shift _ (Rv32i.immI_mod _)
      · rfl
  | lui =>
    apply written rfl
    · rw [next]
      exact straight rfl
    · rw [aluWriteback, arm]
      rfl
  | auipc =>
    apply written rfl
    · rw [next]
      exact straight rfl
    · rw [aluWriteback, arm]
      show s.alu i = s.pc + _
      rw [alu, opa, opb, arm, BitVec.add_comm]
      exact aluResult_fn _ _ .add
  | jal =>
    apply written rfl
    · rw [next]
      show s.alu i = s.pc + _
      rw [alu, opa, opb, arm, BitVec.add_comm]
      exact aluResult_fn _ _ .add
    · rw [aluWriteback, arm]
      exact straight rfl
  | jalr =>
    apply written rfl
    · rw [next]
      show s.alu i &&& ~~~1 = (_ + _) &&& ~~~1
      congr 1
      rw [alu_of_reg zero (by rw [arm]; rfl), opb_of_iImmediate (by rw [arm]; rfl), arm]
      exact aluResult_fn _ _ .add
    · rw [aluWriteback, arm]
      exact straight rfl
  | branch c =>
    refine ⟨?_, fun r early => gprNext_of_noWrite zero (by rw [arm]; rfl) early⟩
    have taken : (s.alu i).getLsbD 0 = c.holds (s.hart.reg (Rv32i.rs1 i.instData))
        (s.hart.reg (Rv32i.rs2 i.instData)) := by
      rw [alu_of_reg zero (by rw [arm]; rfl), opb_of_reg zero (by rw [arm]; rfl), arm]
      exact aluResult_cond _ _ c
    rw [next]
    show s.consecPc i = if c.holds _ _ then s.pc + _ else s.pc + 4
    rw [consecPc, taken, arm]
    show s.pc + (if (true && c.holds _ _) then _ else _) = _
    rw [Bool.true_and]
    split
    · rfl
    · rfl

/-- A result of an earlier instruction is only written where this one writes nothing. -/
theorem dest_of_lateWrite (word : Rv32i.decode i.instData = some d)
    (ordinary : s.exception i = false) (moves : s.stall i = false) {r : BitVec C.RegWidth}
    (late : s.lateWrite i r) {k : BitVec 5} (writes : d.dest = some k) :
    k.setWidth C.RegWidth = 0 := by
  have idle := late.1
  rw [retireI_of_moves ordinary moves, dec_of_decode word, rd_eq] at idle
  cases Rv32i.reads_of_decode word with
  | branch c => contradiction
  | _ =>
    obtain rfl := Option.some.inj writes
    simpa [armOf] using idle

end Cycle

/-- **The core executes RV32I.**  For every computation, upper immediate, branch and jump,
every program counter and register file, an instruction that meets no exception and no
stall leaves the program counter and the registers as the instruction set says.  The only
other write is that of a result of an earlier load or offload, when the instruction
writes no register itself; the only other program counter that of a debug entry. -/
theorem executes {d : Rv32i.Instr} (zero : s.gpr 0 = 0)
    (word : Rv32i.decode i.instData = some d) (ordinary : s.exception i = false)
    (moves : s.stall i = false) :
    s.npc i = (d.exec s.hart).pc ∧
      (s.undisturbed i = true → (s.next i).pc = (d.exec s.hart).pc) ∧
      (∀ r, ¬s.lateWrite i r → (s.next i).gpr r = (d.exec s.hart).x r) ∧
      ∀ r, s.lateWrite i r → ∀ k, d.dest = some k → k.setWidth C.RegWidth = 0 := by
  obtain ⟨target, registers⟩ := executes_instr zero word ordinary moves
  refine ⟨target, fun alone => ?_, registers, fun r late k writes => ?_⟩
  · exact (pcD_of_undisturbed (fun _ => ordinary) moves alone).trans target
  · exact dest_of_lateWrite word ordinary moves late writes

/-! ### A branch beside the result of an offload -/

/-- `beq x0, x0, 8` while an accelerator returns 7 to register 5. -/
def branchIn : Input smallCfg where
  instData := 0x00000463
  accPvalid := true
  accPid := 5
  accPdata := 7

/-- **The branch is executed, and register 5 changes.** -/
theorem register_written_beside_branch :
    ¬∀ (s : State smallParts) (i : Input smallCfg) (d : Rv32i.Instr), s.gpr 0 = 0 →
      Rv32i.decode i.instData = some d → s.exception i = false → s.stall i = false →
        s.npc i = (d.exec s.hart).pc ∧ ∀ r, (s.next i).gpr r = (d.exec s.hart).x r := by
  intro always
  have kept := (always (State.reset smallParts) branchIn (.branch .eq 0 0 8) rfl (by decide)
    (by decide) (by decide)).2 5
  exact absurd kept (by decide)

/-- The branch goes to its target all the same. -/
theorem executes_branch : (State.reset smallParts).npc branchIn = 0x1008 := by
  have word : Rv32i.decode branchIn.instData = some (.branch .eq 0 0 8) := by decide
  have ordinary : (State.reset smallParts).exception branchIn = false := by decide
  have moves : (State.reset smallParts).stall branchIn = false := by decide
  exact (executes (State.reset smallParts) branchIn rfl word ordinary moves).1.trans (by decide)

end State

end SnitchCluster.Core
