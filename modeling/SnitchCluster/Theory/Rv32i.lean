/-
# Theory.Rv32i -- the integer computations and jumps of RV32I

The part of the RISC-V base instruction set that reads and writes registers and the
program counter only: computations on registers and immediates, `LUI` and `AUIPC`,
conditional branches, `JAL` and `JALR`.  `decode` reads the fields of an instruction
word, `Instr.exec` is what the instruction does to a hart.  The number of registers is
free, so that the embedded variant is covered too.
-/
import Mathlib.Data.Nat.Basic

namespace SnitchCluster.Theory.Rv32i

/-! ## Instructions -/

/-- The computations, on two registers or a register and an immediate. -/
inductive Fn where
  | add | sub | sll | slt | sltu | xor | srl | sra | or | and
  deriving DecidableEq, Repr

/-- The conditions of branches. -/
inductive Cond where
  | eq | ne | lt | ge | ltu | geu
  deriving DecidableEq, Repr

inductive Instr where
  | op (f : Fn) (rd rs1 rs2 : BitVec 5)
  | opImm (f : Fn) (rd rs1 : BitVec 5) (imm : BitVec 32)
  | lui (rd : BitVec 5) (imm : BitVec 32)
  | auipc (rd : BitVec 5) (imm : BitVec 32)
  | jal (rd : BitVec 5) (imm : BitVec 32)
  | jalr (rd rs1 : BitVec 5) (imm : BitVec 32)
  | branch (c : Cond) (rs1 rs2 : BitVec 5) (imm : BitVec 32)
  deriving DecidableEq, Repr

/-! ## Encoding -/

section Word

variable (w : BitVec 32)

def opcode : BitVec 7 := w.extractLsb' 0 7
def rd : BitVec 5 := w.extractLsb' 7 5
def funct3 : BitVec 3 := w.extractLsb' 12 3
def rs1 : BitVec 5 := w.extractLsb' 15 5
def rs2 : BitVec 5 := w.extractLsb' 20 5
def funct7 : BitVec 7 := w.extractLsb' 25 7

/-- Every immediate is extended by its sign, the uppermost bit of the word. -/
def immI : BitVec 32 := (w.extractLsb' 20 12).signExtend 32
def immB : BitVec 32 :=
  (w.extractLsb' 31 1 ++ w.extractLsb' 7 1 ++ w.extractLsb' 25 6 ++ w.extractLsb' 8 4 ++
    (0 : BitVec 1)).signExtend 32
def immU : BitVec 32 := w.extractLsb' 12 20 ++ (0 : BitVec 12)
def immJ : BitVec 32 :=
  (w.extractLsb' 31 1 ++ w.extractLsb' 12 8 ++ w.extractLsb' 20 1 ++ w.extractLsb' 21 10 ++
    (0 : BitVec 1)).signExtend 32

/-- The shift amount of an immediate shift. -/
def shamt : BitVec 32 := (w.extractLsb' 20 5).setWidth 32

end Word

/-- The computation of a register-register word. -/
def regFn (funct7 : BitVec 7) (funct3 : BitVec 3) : Option Fn :=
  if funct7 = 0b0000000 then
    match funct3 with
    | 0b000 => some .add
    | 0b001 => some .sll
    | 0b010 => some .slt
    | 0b011 => some .sltu
    | 0b100 => some .xor
    | 0b101 => some .srl
    | 0b110 => some .or
    | 0b111 => some .and
  else if funct7 = 0b0100000 then
    match funct3 with
    | 0b000 => some .sub
    | 0b101 => some .sra
    | _ => none
  else none

/-- The computation of a register-immediate word; only shifts look at `funct7`. -/
def immFn (funct7 : BitVec 7) (funct3 : BitVec 3) : Option Fn :=
  match funct3 with
  | 0b000 => some .add
  | 0b001 => if funct7 = 0b0000000 then some .sll else none
  | 0b010 => some .slt
  | 0b011 => some .sltu
  | 0b100 => some .xor
  | 0b101 =>
    if funct7 = 0b0000000 then some .srl else if funct7 = 0b0100000 then some .sra else none
  | 0b110 => some .or
  | 0b111 => some .and

def Fn.isShift : Fn → Bool
  | .sll | .srl | .sra => true
  | _ => false

def cond : BitVec 3 → Option Cond
  | 0b000 => some .eq
  | 0b001 => some .ne
  | 0b100 => some .lt
  | 0b101 => some .ge
  | 0b110 => some .ltu
  | 0b111 => some .geu
  | _ => none

/-- The instruction of a word, if it is one of these. -/
def decode (w : BitVec 32) : Option Instr :=
  if opcode w = 0b0110111 then some (.lui (rd w) (immU w))
  else if opcode w = 0b0010111 then some (.auipc (rd w) (immU w))
  else if opcode w = 0b1101111 then some (.jal (rd w) (immJ w))
  else if opcode w = 0b1100111 then
    if funct3 w = 0b000 then some (.jalr (rd w) (rs1 w) (immI w)) else none
  else if opcode w = 0b1100011 then
    (cond (funct3 w)).map fun c => .branch c (rs1 w) (rs2 w) (immB w)
  else if opcode w = 0b0010011 then
    (immFn (funct7 w) (funct3 w)).map fun f =>
      .opImm f (rd w) (rs1 w) (if f.isShift then shamt w else immI w)
  else if opcode w = 0b0110011 then
    (regFn (funct7 w) (funct3 w)).map fun f => .op f (rd w) (rs1 w) (rs2 w)
  else none

/-! ## Meaning -/

/-- A computation; shifts use the five lower bits of the second operand. -/
def Fn.eval (f : Fn) (a b : BitVec 32) : BitVec 32 :=
  match f with
  | .add => a + b
  | .sub => a - b
  | .sll => a <<< (b.toNat % 32)
  | .slt => if a.toInt < b.toInt then 1 else 0
  | .sltu => if a.toNat < b.toNat then 1 else 0
  | .xor => a ^^^ b
  | .srl => a >>> (b.toNat % 32)
  | .sra => a.sshiftRight (b.toNat % 32)
  | .or => a ||| b
  | .and => a &&& b

def Cond.holds (c : Cond) (a b : BitVec 32) : Bool :=
  match c with
  | .eq => decide (a = b)
  | .ne => decide (a ≠ b)
  | .lt => decide (a.toInt < b.toInt)
  | .ge => decide (b.toInt ≤ a.toInt)
  | .ltu => decide (a.toNat < b.toNat)
  | .geu => decide (b.toNat ≤ a.toNat)

/-- The program counter and the registers; a register specifier of a hart with fewer
registers drops its upper bits. -/
structure Hart (n : Nat) where
  pc : BitVec 32
  x : BitVec n → BitVec 32

namespace Hart

variable {n : Nat} (h : Hart n)

/-- Register 0 reads as zero. -/
def reg (r : BitVec 5) : BitVec 32 := if r.setWidth n = 0 then 0 else h.x (r.setWidth n)

/-- Writes to register 0 are dropped. -/
def set (r : BitVec 5) (v : BitVec 32) : BitVec n → BitVec 32 := fun k =>
  if k = 0 then 0 else if k = r.setWidth n then v else h.x k

end Hart

namespace Instr

/-- The register an instruction writes. -/
def dest : Instr → Option (BitVec 5)
  | op _ rd _ _ | opImm _ rd _ _ | lui rd _ | auipc rd _ | jal rd _ | jalr rd _ _ => some rd
  | branch .. => none

variable {n : Nat} (h : Hart n)

/-- What the instruction does to a hart. -/
def exec : Instr → Hart n
  | op f rd rs1 rs2 => ⟨h.pc + 4, h.set rd (f.eval (h.reg rs1) (h.reg rs2))⟩
  | opImm f rd rs1 imm => ⟨h.pc + 4, h.set rd (f.eval (h.reg rs1) imm)⟩
  | lui rd imm => ⟨h.pc + 4, h.set rd imm⟩
  | auipc rd imm => ⟨h.pc + 4, h.set rd (h.pc + imm)⟩
  | jal rd imm => ⟨h.pc + imm, h.set rd (h.pc + 4)⟩
  | jalr rd rs1 imm => ⟨(h.reg rs1 + imm) &&& ~~~1, h.set rd (h.pc + 4)⟩
  | branch c rs1 rs2 imm =>
    ⟨if c.holds (h.reg rs1) (h.reg rs2) then h.pc + imm else h.pc + 4, h.x⟩

end Instr

/-! ## Words by their fields -/

/-- A word is its fields. -/
theorem word_eq_fields (w : BitVec 32) :
    w = funct7 w ++ rs2 w ++ rs1 w ++ funct3 w ++ rd w ++ opcode w := by
  apply BitVec.eq_of_getLsbD_eq
  intro k bound
  simp only [funct7, rs2, rs1, funct3, rd, opcode, BitVec.getLsbD_append, BitVec.getLsbD_extractLsb']
  grind

/-- The operands an instruction takes from its word. -/
inductive Reads (w : BitVec 32) : Instr → Prop
  | op (f : Fn) : Reads w (.op f (rd w) (rs1 w) (rs2 w))
  | opImm (f : Fn) :
      Reads w (.opImm f (rd w) (rs1 w) (if f.isShift then shamt w else immI w))
  | lui : Reads w (.lui (rd w) (immU w))
  | auipc : Reads w (.auipc (rd w) (immU w))
  | jal : Reads w (.jal (rd w) (immJ w))
  | jalr : Reads w (.jalr (rd w) (rs1 w) (immI w))
  | branch (c : Cond) : Reads w (.branch c (rs1 w) (rs2 w) (immB w))

theorem reads_of_decode {w : BitVec 32} {d : Instr} (word : decode w = some d) : Reads w d := by
  unfold decode at word
  split at word
  · exact Option.some.inj word ▸ .lui
  split at word
  · exact Option.some.inj word ▸ .auipc
  split at word
  · exact Option.some.inj word ▸ .jal
  split at word
  · split at word
    · exact Option.some.inj word ▸ .jalr
    · contradiction
  split at word
  · obtain ⟨c, -, rfl⟩ := Option.map_eq_some_iff.mp word
    exact .branch c
  split at word
  · obtain ⟨f, -, rfl⟩ := Option.map_eq_some_iff.mp word
    exact .opImm f
  split at word
  · obtain ⟨f, -, rfl⟩ := Option.map_eq_some_iff.mp word
    exact .op f
  · contradiction

/-- A shift sees the five lower bits only. -/
theorem Fn.eval_shift {f : Fn} (shift : f.isShift = true) (a : BitVec 32) {b c : BitVec 32}
    (same : b.toNat % 32 = c.toNat % 32) : f.eval a b = f.eval a c := by
  cases f with
  | sll => simp only [eval, same]
  | srl => simp only [eval, same]
  | sra => simp only [eval, same]
  | _ => contradiction

/-- The shift amount is the lower part of the immediate. -/
theorem immI_mod (w : BitVec 32) : (immI w).toNat % 32 = (shamt w).toNat % 32 := by
  have fields : (immI w).extractLsb' 0 5 = (shamt w).extractLsb' 0 5 := by
    apply BitVec.eq_of_getLsbD_eq
    intro k bound
    have near : k < 12 := by omega
    have here : k < 32 := by omega
    simp only [immI, shamt, BitVec.getLsbD_extractLsb', BitVec.getLsbD_signExtend,
      BitVec.getLsbD_setWidth, bound, near, here, Nat.zero_add, decide_true, Bool.true_and,
      if_true]
  have low := congrArg BitVec.toNat fields
  simpa using low

end SnitchCluster.Theory.Rv32i
