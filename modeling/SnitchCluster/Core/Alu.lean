/-
# Core.Alu -- the arithmetic unit

One 33-bit adder and one right shifter serve all operations: a comparison is the
carry out of a subtraction over sign- or zero-extended operands, a left shift is
a right shift of the reversed word.
-/
import SnitchCluster.Core.Package

namespace SnitchCluster.Core

section Alu

variable (op : AluOp) (opa opb : BitVec 32)

/-- `alu_opa`: unsigned comparisons extend by zero, everything else by sign. -/
def aluOpa : BitVec 33 :=
  match op with
  | .sltu | .geu => opa.setWidth 33
  | _ => opa.signExtend 33

def aluOpb : BitVec 33 :=
  match op with
  | .sub | .slt | .ge | .eq | .neq => -(opb.signExtend 33)
  | .sltu | .geu => -(opb.setWidth 33)
  | _ => opb.signExtend 33

def adderResult : BitVec 33 := aluOpa op opa + aluOpb op opb

/-- `shift_right_result`, with `shift_left` and `shift_arithmetic` given by the
operation. -/
def shiftRightResult : BitVec 32 :=
  let shiftOpa := if op = .sll then opa.reverse else opa
  let sign := shiftOpa.msb && op = .sra
  ((BitVec.ofBool sign ++ shiftOpa : BitVec 33).sshiftRight (opb.extractLsb' 0 5).toNat).setWidth 32

def bit (b : Bool) : BitVec 32 := (BitVec.ofBool b).setWidth 32

/-- `alu_result`. -/
def aluResult : BitVec 32 :=
  match op with
  | .slt | .sltu => bit (adderResult op opa opb).msb
  | .ge | .geu => bit (!(adderResult op opa opb).msb)
  | .sll => (shiftRightResult op opa opb).reverse
  | .srl | .sra => shiftRightResult op opa opb
  | .lXor => opa ^^^ opb
  | .lAnd => opa &&& opb
  | .lNAnd => ~~~opa &&& opb
  | .lOr => opa ||| opb
  | .eq => bit (adderResult op opa opb == 0)
  | .neq => bit (adderResult op opa opb != 0)
  | .bypassA => opa
  | .add | .sub => (adderResult op opa opb).setWidth 32

end Alu

end SnitchCluster.Core
