/-
# Ipu.Redundancy -- redundancy checks by two truncated products

A check divides the bits of a word out by a reflected polynomial.  The unit does it with
two carry-less products: by a precomputed quotient in the first cycle, by the polynomial
in the second, each truncated to 32 bits and reversed.  Both are linear in the word
(`barrett_linear`), so that they agree is seen on the 32 words of one bit (`barrett_bit`);
the constants of the source are right.
-/
import SnitchCluster.Ipu.Operation
import SnitchCluster.Theory.BitLinear

namespace SnitchCluster.Ipu

open Theory
open Theory.BitManip (Linear)

namespace Alu

/-- The checks: the operation of the unit, the polynomial, and the bits it divides out. -/
def checks : List (AluOp × BitVec 32 × Nat) :=
  [(.crc32B, Operation.crc32Poly, 8), (.crc32H, Operation.crc32Poly, 16),
    (.crc32W, Operation.crc32Poly, 32), (.crc32cB, Operation.crc32cPoly, 8),
    (.crc32cH, Operation.crc32cPoly, 16), (.crc32cW, Operation.crc32cPoly, 32)]

/-- The remainder by two products, and what is not divided out. -/
def barrett (mu poly : BitVec 32) (n : Nat) (a : BitVec 32) : BitVec 32 :=
  (BitManip.clmul (BitManip.clmul (a <<< (32 - n)) mu).reverse poly).reverse ^^^ a >>> n

theorem barrett_linear (mu poly : BitVec 32) (n : Nat) : Linear (barrett mu poly n) := by
  have quotient : Linear fun a : BitVec 32 => (BitManip.clmul (a <<< (32 - n)) mu).reverse :=
    ((BitManip.clmul_linear mu).comp (Linear.id.shiftLeft (32 - n))).reverse
  exact ((BitManip.clmul_linear poly).comp quotient).reverse.xor (Linear.id.ushiftRight n)

/-- The constants divide a single bit out as the polynomials do. -/
theorem barrett_bit : ∀ check ∈ checks, ∀ i < 32,
    barrett (crcMuRev check.1) (crcPoly check.1) check.2.2 (1#32 <<< i) =
      BitManip.crc check.2.1 check.2.2 (1#32 <<< i) := by
  unfold barrett
  -- as sums of shifted copies, the products are evaluated word by word
  simp only [← BitManip.row_eq_clmul]
  decide +kernel

/-- **Two truncated products divide out**, with the constants of the source. -/
theorem barrett_crc {check : AluOp × BitVec 32 × Nat} (listed : check ∈ checks) (a : BitVec 32) :
    barrett (crcMuRev check.1) (crcPoly check.1) check.2.2 a =
      BitManip.crc check.2.1 check.2.2 a := by
  apply (barrett_linear _ _ _).ext (BitManip.crc_linear _ _)
  exact barrett_bit check listed

section Unit

variable {op : AluOp} {a b q other : BitVec 32} {first : Bool} {imd : BitVec 32 × BitVec 32}

/-- What the first cycle of a check offers the first register. -/
theorem imdValD_check (checking : crcOp op = true) : (imdValD op a b true imd).1 =
    (BitManip.clmul (crcOperand op a) (crcMuRev op)).reverse := by
  have left : clmulOpA op a true imd = crcOperand op a := by simp [clmulOpA, checking]
  have right : clmulOpB op b true = crcMuRev op := by simp [clmulOpB, checking]
  rw [imdValD, if_pos checking, clmulResultRev, clmulResultRaw_eq, left, right]

/-- What the second cycle multiplies. -/
theorem clmulResultRev_check (checking : crcOp op = true) :
    clmulResultRev op a b false (q, other) = (BitManip.clmul q (crcPoly op)).reverse := by
  have left : clmulOpA op a false (q, other) = q := by simp [clmulOpA, checking]
  have right : clmulOpB op b false = crcPoly op := by simp [clmulOpB, checking]
  rw [clmulResultRev, clmulResultRaw_eq, left, right]

theorem append_zeros (n k : Nat) (x : BitVec (n + k)) :
    x.extractLsb' 0 n ++ 0#k = x <<< k := by
  apply BitVec.eq_of_getLsbD_eq
  intro i inside
  rw [BitVec.getLsbD_append, BitVec.getLsbD_shiftLeft, BitVec.getLsbD_extractLsb',
    decide_eq_true inside]
  by_cases low : i < k
  · simp [low]
  · have within : i - k < n := by omega
    simp [low, within]

/-- **The second cycle of a check returns the remainder by two products.** -/
theorem result_check {check : AluOp × BitVec 32 × Nat} (listed : check ∈ checks) :
    result check.1 a b false ((imdValD check.1 a b true imd).1, other) =
      barrett (crcMuRev check.1) (crcPoly check.1) check.2.2 a := by
  have checking : crcOp check.1 = true := by
    revert check
    decide
  have product : clmulResultRev check.1 a b false ((imdValD check.1 a b true imd).1, other) =
      (BitManip.clmul (BitManip.clmul (crcOperand check.1 a) (crcMuRev check.1)).reverse
        (crcPoly check.1)).reverse := by
    rw [clmulResultRev_check checking, imdValD_check checking]
  have operand : crcOperand check.1 a = a <<< (32 - check.2.2) := by
    simp only [checks, List.mem_cons, List.not_mem_nil, or_false] at listed
    rcases listed with rfl | rfl | rfl | rfl | rfl | rfl
    · exact append_zeros 8 24 a
    · exact append_zeros 16 16 a
    · exact (BitVec.shiftLeft_zero a).symm
    · exact append_zeros 8 24 a
    · exact append_zeros 16 16 a
    · exact (BitVec.shiftLeft_zero a).symm
  rw [operand] at product
  rw [barrett, ← product]
  have none : a >>> 32 = 0#32 := BitVec.ushiftRight_eq_zero (Nat.le_refl 32)
  simp only [checks, List.mem_cons, List.not_mem_nil, or_false] at listed
  rcases listed with rfl | rfl | rfl | rfl | rfl | rfl
  · rfl
  · rfl
  · rw [none, BitVec.xor_zero]
    rfl
  · rfl
  · rfl
  · rw [none, BitVec.xor_zero]
    rfl

end Unit

/-- **Checks and carry-less products**: the second cycle of a check, its operand held and
the first register loaded with what the first cycle offered, divides the bits of the word
out one by one; the products return the lower, the middle and the upper part of the whole
product. -/
theorem checks_and_products (a b other : BitVec 32) (first : Bool) (imd : BitVec 32 × BitVec 32) :
    (∀ check ∈ checks, result check.1 a b false ((imdValD check.1 a b true imd).1, other) =
        BitManip.crc check.2.1 check.2.2 a) ∧
      result .clmul a b first imd = (BitManip.product a b).extractLsb' 0 32 ∧
      result .clmulr a b first imd = (BitManip.product a b).extractLsb' 31 32 ∧
      result .clmulh a b first imd = (BitManip.product a b).extractLsb' 32 32 := by
  refine ⟨fun check listed => ?_, ?_, ?_, ?_⟩
  · rw [result_check listed, barrett_crc listed]
  · rw [← BitManip.clmul_eq]
    exact clmulResult_clmul
  · rw [← BitManip.clmulr_eq a b]
    exact clmulResult_clmulr
  · rw [← BitManip.clmulh_eq]
    exact clmulResult_clmulh

end Alu

end SnitchCluster.Ipu
