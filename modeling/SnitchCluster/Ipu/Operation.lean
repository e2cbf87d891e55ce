/-
# Ipu.Operation -- the bit-manipulation operations and the unit that computes them

What each register-writing instruction of the integer subsystem means (`apply`), and
that the arithmetic unit computes it in its first cycle (`result_op`), family by
family.  Rotations, redundancy checks, extraction and deposit are not among what it
computes at once (`combinational`); the operations that use the shift amount depend on
the cycle (`shifts`).
-/
import SnitchCluster.Ipu.Alu

namespace SnitchCluster.Ipu

open Theory

/-- The operations of the instructions, under their mnemonics. -/
inductive Operation
  | andn | orn | xnor | slo | sro | rol | ror | sbclr | sbset | sbinv | sbext | gorc | grev
  | clz | ctz | pcnt | sextB | sextH
  | crc32B | crc32H | crc32W | crc32cB | crc32cH | crc32cW
  | clmul | clmulr | clmulh | min | max | minu | maxu | shfl | unshfl | bext | bdep
  | pack | packu | packh | bfp
  deriving DecidableEq, Repr

namespace Operation

/-- The reflected polynomials of the two checks. -/
def crc32Poly : BitVec 32 := 0xedb8_8320

def crc32cPoly : BitVec 32 := 0x82f6_3b78

/-- The field a control word describes, of length 16 where it says 0. -/
def bfpWidth (control : BitVec 32) : Nat :=
  if control.extractLsb' 24 4 = 0 then 16 else (control.extractLsb' 24 4).toNat

/-- Bit-field place: the lower bits of `b` at an offset in `a`, both given by `b`. -/
def place (a b : BitVec 32) : BitVec 32 :=
  let offset := (b.extractLsb' 16 5).toNat
  let mask := BitManip.slo 0#32 (bfpWidth b)
  (a &&& ~~~(mask <<< offset)) ||| ((b &&& mask) <<< offset)

/-- **What an operation computes.** -/
def apply (o : Operation) (a b : BitVec 32) : BitVec 32 :=
  let amount := (b.extractLsb' 0 5).toNat
  match o with
  | andn => a &&& ~~~b
  | orn => a ||| ~~~b
  | xnor => ~~~(a ^^^ b)
  | slo => BitManip.slo a amount
  | sro => BitManip.sro a amount
  | rol => a.rotateLeft amount
  | ror => a.rotateRight amount
  | sbclr => BitManip.sbclr a amount
  | sbset => BitManip.sbset a amount
  | sbinv => BitManip.sbinv a amount
  | sbext => BitManip.sbext a amount
  | gorc => BitManip.gorc a amount
  | grev => BitManip.grev a amount
  | clz => a.clz
  | ctz => a.ctz
  | pcnt => a.cpop
  | sextB => (a.setWidth 8).signExtend 32
  | sextH => (a.setWidth 16).signExtend 32
  | crc32B => BitManip.crc crc32Poly 8 a
  | crc32H => BitManip.crc crc32Poly 16 a
  | crc32W => BitManip.crc crc32Poly 32 a
  | crc32cB => BitManip.crc crc32cPoly 8 a
  | crc32cH => BitManip.crc crc32cPoly 16 a
  | crc32cW => BitManip.crc crc32cPoly 32 a
  | clmul => BitManip.clmul a b
  | clmulr => BitManip.clmulr a b
  | clmulh => BitManip.clmulh a b
  | min => if a.slt b then a else b
  | max => if a.slt b then b else a
  | minu => if a.ult b then a else b
  | maxu => if a.ult b then b else a
  | shfl => BitManip.shfl a amount
  | unshfl => BitManip.unshfl a amount
  | bext => BitManip.bext a b
  | bdep => BitManip.bdep a b
  | pack => b.setWidth 16 ++ a.setWidth 16
  | packu => (b >>> 16).setWidth 16 ++ (a >>> 16).setWidth 16
  | packh => (b.setWidth 8 ++ a.setWidth 8).setWidth 32
  | bfp => place a b

/-- The operation of the unit that bears the same name. -/
def op : Operation → AluOp
  | andn => .andn | orn => .orn | xnor => .xnor | slo => .slo | sro => .sro | rol => .rol
  | ror => .ror | sbclr => .sbclr | sbset => .sbset | sbinv => .sbinv | sbext => .sbext
  | gorc => .gorc | grev => .grev | clz => .clz | ctz => .ctz | pcnt => .pcnt
  | sextB => .sextb | sextH => .sexth
  | crc32B => .crc32B | crc32H => .crc32H | crc32W => .crc32W
  | crc32cB => .crc32cB | crc32cH => .crc32cH | crc32cW => .crc32cW
  | clmul => .clmul | clmulr => .clmulr | clmulh => .clmulh
  | min => .min | max => .max | minu => .minu | maxu => .maxu
  | shfl => .shfl | unshfl => .unshfl | bext => .bext | bdep => .bdep
  | pack => .pack | packu => .packu | packh => .packh | bfp => .bfp

/-- The unit computes the operation within a cycle. -/
def combinational : Operation → Bool
  | rol | ror | crc32B | crc32H | crc32W | crc32cB | crc32cH | crc32cW | bext | bdep => false
  | _ => true

/-- The operation shifts by an amount that depends on the cycle. -/
def shifts : Operation → Bool
  | slo | sro | sbclr | sbset | sbinv | sbext | gorc | grev | shfl | unshfl => true
  | _ => false

end Operation

/-! ## The parts of the unit -/

namespace Alu

variable {op : AluOp} {a b : BitVec 32} {first : Bool} {imd : BitVec 32 × BitVec 32}

/-! ### Logic -/

theorem operandBNeg_eq : operandBNeg b = ~~~b ++ 1#1 := by
  rw [operandBNeg, BitVec.xor_allOnes, BitVec.not_append]
  rfl

theorem operandBNeg_upper : (operandBNeg b).extractLsb' 1 32 = ~~~b := by
  rw [operandBNeg_eq]
  exact BitVec.extractLsb'_append_eq_left

/-! ### Adder and comparator -/

theorem toNat_append_one (x : BitVec 32) : (x ++ 1#1).toNat = 2 * x.toNat + 1 := by
  rw [BitVec.toNat_append, ← Nat.shiftLeft_add_eq_or_of_lt (by decide), Nat.shiftLeft_eq]
  simp only [BitVec.toNat_ofNat]
  omega

theorem adderResult_sub (negates : adderOpBNegate op = true) : adderResult op a b = a - b := by
  have left := a.isLt
  have right := b.isLt
  apply BitVec.eq_of_toNat_eq
  simp only [adderResult, negates, operandBNeg_eq, if_true, BitVec.extractLsb'_toNat,
    BitVec.toNat_add, BitVec.toNat_setWidth, toNat_append_one, BitVec.toNat_not,
    BitVec.toNat_sub, Nat.shiftRight_eq_div_pow]
  omega

/-- The difference of two words of one sign is negative if the first is smaller. -/
theorem msb_sub (same : a.msb = b.msb) : (a - b).msb = a.ult b := by
  have left := a.isLt
  have right := b.isLt
  rw [BitVec.msb_eq_decide, BitVec.msb_eq_decide, decide_eq_decide] at same
  rw [BitVec.msb_eq_decide, BitVec.ult_eq_decide, decide_eq_decide, BitVec.toNat_sub]
  omega

theorem isGreaterEqual_eq (negates : adderOpBNegate op = true) :
    isGreaterEqual op a b = !(if cmpSigned op then a.slt b else a.ult b) := by
  rw [isGreaterEqual, adderResult_sub negates]
  by_cases same : a.msb = b.msb
  · simp [same, msb_sub same, BitVec.slt_eq_ult_of_msb_eq same]
  · have other : b.msb = !a.msb := Bool.eq_not_of_ne (Ne.symm same)
    rw [BitVec.slt_eq_not_ult_of_msb_neq same, BitVec.ult_eq_msb_of_msb_neq same, other]
    cases cmpSigned op <;> simp

/-! ### Shifter -/

/-- Where the amount is not complemented, it is the low bits of the operand. -/
theorem shiftAmt_first (noField : op ≠ .bfp) (noFunnel : shiftFunnel op = false) :
    shiftAmt op b true = b.extractLsb' 0 5 := by
  simp [shiftAmt, noField, noFunnel]

/-- The shifter with zeros coming in. -/
theorem sshiftRight_zeros (x : BitVec 32) (n : Nat) :
    ((BitVec.ofBool false ++ x : BitVec 33).sshiftRight n).setWidth 32 = x >>> n := by
  apply BitVec.eq_of_getLsbD_eq
  intro i inside
  simp only [BitVec.getLsbD_setWidth, BitVec.getLsbD_sshiftRight, BitVec.getLsbD_append,
    BitVec.msb_append, BitVec.getLsbD_ushiftRight, inside]
  by_cases within : n + i < 32
  · simp [within, show n + i < 33 by omega]
    omega
  · simp [within, BitVec.getLsbD_of_ge x (n + i) (by omega)]

/-- The shifter with ones coming in. -/
theorem sshiftRight_ones (x : BitVec 32) (n : Nat) :
    ((BitVec.ofBool true ++ x : BitVec 33).sshiftRight n).setWidth 32 = BitManip.sro x n := by
  apply BitVec.eq_of_getLsbD_eq
  intro i inside
  simp only [BitManip.sro, BitVec.getLsbD_setWidth, BitVec.getLsbD_sshiftRight,
    BitVec.getLsbD_append, BitVec.msb_append, BitVec.getLsbD_ushiftRight, BitVec.getLsbD_not,
    inside]
  by_cases within : n + i < 32
  · simp [within, show n + i < 33 by omega]
    omega
  · simp [within, BitVec.getLsbD_of_ge x (n + i) (by omega)]
    omega

theorem shiftResult_slo :
    shiftResult .slo a b true = BitManip.slo a (b.extractLsb' 0 5).toNat := by
  have input : shiftInput .slo a b true = a.reverse := rfl
  have sign : (shiftOnes .slo || (shiftArith .slo && a.reverse.msb)) = true := rfl
  rw [shiftResult, input, sign, sshiftRight_ones, shiftAmt_first (by decide) rfl]
  exact BitManip.reverse_sro_reverse a _

theorem shiftResult_sro :
    shiftResult .sro a b true = BitManip.sro a (b.extractLsb' 0 5).toNat := by
  have input : shiftInput .sro a b true = a := rfl
  have sign : (shiftOnes .sro || (shiftArith .sro && a.msb)) = true := rfl
  rw [shiftResult, input, sign, sshiftRight_ones, shiftAmt_first (by decide) rfl]
  rfl

theorem shiftResult_sbext :
    shiftResult .sbext a b true = a >>> (b.extractLsb' 0 5).toNat := by
  have input : shiftInput .sbext a b true = a := rfl
  have sign : (shiftOnes .sbext || (shiftArith .sbext && a.msb)) = false := rfl
  rw [shiftResult, input, sign, sshiftRight_zeros, shiftAmt_first (by decide) rfl]
  rfl

set_option maxRecDepth 2000 in
/-- A single-bit operation shifts one bit up to its place. -/
theorem shiftResult_single (single : shiftSbmode op = true) :
    shiftResult op a b true = 1#32 <<< (b.extractLsb' 0 5).toNat := by
  have top : (0x8000_0000#32) = (1#32).reverse := by decide
  have amount : shiftAmt op b true = b.extractLsb' 0 5 := by
    apply shiftAmt_first <;> cases op <;> simp [shiftSbmode] at single <;> decide
  have input : shiftInput op a b true = (1#32).reverse := by
    rw [← top]
    cases op <;> simp [shiftSbmode] at single <;> rfl
  have sign : (shiftOnes op || (shiftArith op && (1#32).reverse.msb)) = false := by
    cases op <;> simp [shiftSbmode] at single <;> rfl
  have up : shiftLeft op b true = true := by
    unfold shiftLeft
    rw [single, Bool.true_or]
  rw [shiftResult, input, sign, sshiftRight_zeros, amount]
  simp only [up, if_true]
  exact BitManip.reverse_ushiftRight_reverse _ _

/-- A bit field is placed in either cycle. -/
theorem shiftResult_bfp : shiftResult .bfp a b first = bfpMask b <<< (bfpOff b).toNat := by
  have input : shiftInput .bfp a b first = (bfpMask b).reverse := rfl
  have sign : (shiftOnes .bfp || (shiftArith .bfp && (bfpMask b).reverse.msb)) = false := rfl
  rw [shiftResult, input, sign, sshiftRight_zeros]
  exact BitManip.reverse_ushiftRight_reverse _ _

theorem bfpMask_eq : bfpMask b = BitManip.slo 0#32 (Operation.bfpWidth b) := by
  have width : (bfpLen b).toNat = Operation.bfpWidth b := by
    unfold bfpLen Operation.bfpWidth
    generalize b.extractLsb' 24 4 = length
    revert length
    decide
  rw [bfpMask, width, BitManip.slo]
  rfl

/-! ### Permutation networks -/

/-- The masks of the five stages: every bit is exchanged with the one `n` places away. -/
theorem rev_exchange (x : BitVec 32) :
    (((x &&& 0x5555_5555) <<< 1) ||| ((x &&& 0xaaaa_aaaa) >>> 1) = BitManip.grev x 1) ∧
    (((x &&& 0x3333_3333) <<< 2) ||| ((x &&& 0xcccc_cccc) >>> 2) = BitManip.grev x 2) ∧
    (((x &&& 0x0f0f_0f0f) <<< 4) ||| ((x &&& 0xf0f0_f0f0) >>> 4) = BitManip.grev x 4) ∧
    (((x &&& 0x00ff_00ff) <<< 8) ||| ((x &&& 0xff00_ff00) >>> 8) = BitManip.grev x 8) ∧
    (((x &&& 0x0000_ffff) <<< 16) ||| ((x &&& 0xffff_0000) >>> 16) = BitManip.grev x 16) := by
  refine ⟨?_, ?_, ?_, ?_, ?_⟩ <;> exact BitManip.masked_exchange x (by decide)

/-- A reversing stage, on or off. -/
theorem revStage_grev {n : Nat} {even odd : BitVec 32} (plain : op ≠ .gorc)
    (exchange : ∀ x : BitVec 32,
      ((x &&& even) <<< n) ||| ((x &&& odd) >>> n) = BitManip.grev x n)
    (on : Bool) (x : BitVec 32) :
    revStage op n even odd on x = BitManip.grev x (if on then n else 0) := by
  cases on with
  | false => exact (BitManip.grev_zero x).symm
  | true => simp [revStage, plain, exchange]

theorem amount_parts (s : BitVec 5) :
    (if s.getLsbD 4 then 16 else 0) ^^^ ((if s.getLsbD 3 then 8 else 0) ^^^
      ((if s.getLsbD 2 then 4 else 0) ^^^ ((if s.getLsbD 1 then 2 else 0) ^^^
        (if s.getLsbD 0 then 1 else 0)))) = s.toNat := by
  revert s
  decide

theorem part_lt {on : Bool} {n : Nat} (small : n < 32) : (if on then n else 0) < 32 := by
  cases on <;> simp [small]

theorem revResult_grev : revResult .grev a b true =
    BitManip.grev a (b.extractLsb' 0 5).toNat := by
  have width : (32 : Nat) = 2 ^ 5 := rfl
  have plain : AluOp.grev ≠ .gorc := by decide
  rw [revResult, shiftAmt_first (by decide) rfl]
  simp only [revStage_grev plain fun x => (rev_exchange x).1,
    revStage_grev plain fun x => (rev_exchange x).2.1,
    revStage_grev plain fun x => (rev_exchange x).2.2.1,
    revStage_grev plain fun x => (rev_exchange x).2.2.2.1,
    revStage_grev plain fun x => (rev_exchange x).2.2.2.2]
  -- the stages compose from the inside out
  simp only [BitManip.grev_grev width _ (part_lt (n := 2) (by decide)),
    BitManip.grev_grev width _ (part_lt (n := 4) (by decide)),
    BitManip.grev_grev width _ (part_lt (n := 8) (by decide)),
    BitManip.grev_grev width _ (part_lt (n := 16) (by decide)), amount_parts]

/-- The stages of an or-combine, on or off, reach ever further. -/
theorem revStage_gorc {n k : Nat} {even odd : BitVec 32} (small : k < 5) (reach : n = 2 ^ k)
    (exchange : ∀ x : BitVec 32,
      ((x &&& even) <<< n) ||| ((x &&& odd) >>> n) = BitManip.grev x n)
    (s : BitVec 5) (x : BitVec 32) :
    revStage .gorc n even odd (s.getLsbD k) (BitManip.gorcTo k x s.toNat) =
      BitManip.gorcTo (k + 1) x s.toNat := by
  have width : (32 : Nat) = 2 ^ 5 := rfl
  rw [BitManip.gorcTo_succ width _ _ small, revStage, exchange, reach]
  rfl

theorem revResult_gorc : revResult .gorc a b true =
    BitManip.gorc a (b.extractLsb' 0 5).toNat := by
  have depth : Nat.log2 32 = 5 := by decide
  have start := fun s : BitVec 5 => BitManip.gorcTo_zero a s.toNat
  rw [revResult, shiftAmt_first (by decide) rfl, BitManip.gorc, depth]
  generalize b.extractLsb' 0 5 = s
  have stage0 := revStage_gorc (n := 1) (k := 0) (by decide) rfl (fun x => (rev_exchange x).1) s a
  rw [start] at stage0
  simp only [stage0, revStage_gorc (n := 2) (k := 1) (by decide) rfl fun x => (rev_exchange x).2.1,
    revStage_gorc (n := 4) (k := 2) (by decide) rfl fun x => (rev_exchange x).2.2.1,
    revStage_gorc (n := 8) (k := 3) (by decide) rfl fun x => (rev_exchange x).2.2.2.1,
    revStage_gorc (n := 16) (k := 4) (by decide) rfl fun x => (rev_exchange x).2.2.2.2]

/-- The masks of the four shuffle stages swap neighbouring bits of the index. -/
theorem shuffleStage_zip {n k : Nat} {up down : BitVec 32}
    (fits : ∀ i < 32,
      ((~~~(up ||| down)).getLsbD i = true ∧ up.getLsbD i = false ∧ down.getLsbD i = false ∧
        BitManip.swapBits k i = i) ∨
      ((~~~(up ||| down)).getLsbD i = false ∧ up.getLsbD i = true ∧ down.getLsbD i = false ∧
        n ≤ i ∧ BitManip.swapBits k i = i - n) ∨
      ((~~~(up ||| down)).getLsbD i = false ∧ up.getLsbD i = false ∧ down.getLsbD i = true ∧
        BitManip.swapBits k i = i + n)) (on : Bool) (x : BitVec 32) :
    shuffleStage n up down on x = BitManip.zip k on x := by
  unfold shuffleStage BitManip.zip
  cases on with
  | false => rw [if_neg Bool.false_ne_true, if_neg Bool.false_ne_true]
  | true => rw [if_pos rfl, if_pos rfl, BitManip.masked_swap x fits]

theorem shuffleStages_eq (mode : Nat → Bool) (x : BitVec 32) : shuffleStages mode x =
    BitManip.zip 0 (mode 0) (BitManip.zip 1 (mode 1) (BitManip.zip 2 (mode 2)
      (BitManip.zip 3 (mode 3) x))) := by
  rw [shuffleStages, shuffleStage_zip (k := 0) (by decide), shuffleStage_zip (k := 1) (by decide),
    shuffleStage_zip (k := 2) (by decide), shuffleStage_zip (k := 3) (by decide)]

theorem shuffleResult_shfl : shuffleResult .shfl a b true =
    BitManip.shfl a (b.extractLsb' 0 5).toNat := by
  have stages : List.range (Nat.log2 32 - 1) = [0, 1, 2, 3] := by decide
  rw [shuffleResult, if_neg (by decide), shiftAmt_first (by decide) rfl, BitManip.shfl, stages,
    shuffleStages_eq]
  rfl

/-- The five bits of an index turned around. -/
def turn (i : Nat) : Nat :=
  16 * (i % 2) + 8 * (i / 2 % 2) + 4 * (i / 4 % 2) + 2 * (i / 8 % 2) + i / 16 % 2

theorem shuffleFlip_eq (x : BitVec 32) : shuffleFlip x = BitManip.permute turn x := by
  apply BitVec.eq_of_getLsbD_eq
  intro i inside
  rw [BitManip.getLsbD_permute _ _ inside]
  unfold shuffleFlip turn
  interval_cases i <;> simp

theorem shuffleFlip_shuffleFlip (x : BitVec 32) : shuffleFlip (shuffleFlip x) = x := by
  rw [shuffleFlip_eq, shuffleFlip_eq, BitManip.permute_permute (ρ := id) x (by decide)]
  exact BitManip.permute_id x fun i _ => rfl

/-- A turned stage is the one at the other end. -/
theorem shuffleFlip_zip {k : Nat} (small : k < 4) (on : Bool) (x : BitVec 32) :
    shuffleFlip (BitManip.zip k on x) = BitManip.zip (3 - k) on (shuffleFlip x) := by
  cases on with
  | false => rfl
  | true =>
    have turned : ∀ i < 32, turn i < 32 ∧
        BitManip.swapBits k (turn i) = BitManip.swapBits k (turn i) := by decide +revert
    have swapped : ∀ i < 32, BitManip.swapBits (3 - k) i < 32 ∧
        turn (BitManip.swapBits (3 - k) i) = BitManip.swapBits k (turn i) := by
      interval_cases k <;> decide
    simp only [BitManip.zip, if_true]
    rw [shuffleFlip_eq, shuffleFlip_eq, BitManip.permute_permute x turned,
      BitManip.permute_permute x swapped]

theorem shuffleResult_unshfl : shuffleResult .unshfl a b true =
    BitManip.unshfl a (b.extractLsb' 0 5).toNat := by
  have stages : List.range (Nat.log2 32 - 1) = [0, 1, 2, 3] := by decide
  rw [shuffleResult, if_pos rfl, shiftAmt_first (by decide) rfl, BitManip.unshfl, stages,
    shuffleStages_eq, shuffleFlip_zip (by decide), shuffleFlip_zip (by decide),
    shuffleFlip_zip (by decide), shuffleFlip_zip (by decide), shuffleFlip_shuffleFlip]
  rfl

/-! ### Bit counter -/

/-- A stage adds neighbours, each kept at the last place of its window. -/
theorem bitcntStage_tree {leaf partials : Nat → BitVec 6} {n : Nat}
    (before : ∀ i, partials (2 ^ n * i + (2 ^ n - 1)) = BitManip.tree (· + ·) leaf n i) (i : Nat) :
    bitcntStage (n + 1) partials (2 ^ (n + 1) * i + (2 ^ (n + 1) - 1)) =
      BitManip.tree (· + ·) leaf (n + 1) i := by
  have positive : 0 < 2 ^ n := Nat.two_pow_pos n
  have double : 2 ^ (n + 1) = 2 ^ n + 2 ^ n := by rw [Nat.pow_succ, Nat.mul_two]
  have last : (2 ^ (n + 1) * i + (2 ^ (n + 1) - 1)) % 2 ^ (n + 1) = 2 ^ (n + 1) - 1 := by
    rw [Nat.mul_comm]
    exact Nat.mul_add_mod_of_lt (by omega)
  have lower : 2 ^ (n + 1) * i + (2 ^ (n + 1) - 1) - 2 ^ n = 2 ^ n * (2 * i) + (2 ^ n - 1) := by
    rw [double, Nat.add_mul, Nat.mul_left_comm, Nat.two_mul]
    omega
  have upper : 2 ^ (n + 1) * i + (2 ^ (n + 1) - 1) = 2 ^ n * (2 * i + 1) + (2 ^ n - 1) := by
    rw [double, Nat.add_mul, Nat.mul_add, Nat.mul_left_comm, Nat.two_mul]
    omega
  rw [bitcntStage, if_pos last, Nat.add_sub_cancel, lower, before, upper, before]
  rfl

/-- The adder tree counts the bits. -/
theorem bitcntResult_eq : bitcntResult op a b =
    BitVec.ofNat 6 (BitManip.onesBelow (bitcntBits op a b) 32) := by
  unfold bitcntResult
  generalize bitcntBits op a b = bits
  have first : ∀ i, bitcntFirst bits (2 ^ 1 * i + (2 ^ 1 - 1)) = BitManip.tree (· + ·)
      (fun i => BitVec.ofNat 6 (bits.getLsbD i).toNat) 1 i := by
    intro i
    have odd : (2 ^ 1 * i + (2 ^ 1 - 1)) % 2 = 1 := by omega
    rw [bitcntFirst, if_pos odd, BitVec.add_comm]
    rfl
  have whole := bitcntStage_tree (bitcntStage_tree (bitcntStage_tree (bitcntStage_tree first))) 0
  rw [BitManip.tree_eq BitVec.add_assoc BitVec.zero_add BitVec.add_zero] at whole
  exact whole.trans (BitManip.row_bits bits 32)

theorem spread_mask (x : BitVec 32) : BitManip.Spreads 32 x (~~~bitcntBitMask .ctz x) := by
  have spreads := ((((BitManip.spreads_self x).shift (n := 1) (by decide)).shift (n := 2)
    (by decide)).shift (n := 4) (by decide)).shift (n := 8) (by decide)
  have whole := spreads.shift (n := 16) (by decide)
  rwa [bitcntBitMask, BitVec.not_not]

/-- The places below the lowest set bit. -/
theorem ones_below_lowest (x : BitVec 32) :
    BitManip.onesBelow (bitcntBitMask .ctz x &&& ~~~x) 32 = x.ctz.toNat := by
  have bound := BitManip.toNat_ctz_le x
  rw [BitManip.onesBelow_of_lowest (c := x.ctz.toNat) ?_ (Nat.le_refl 32), Nat.min_eq_right bound]
  intro i inside
  have spread := spread_mask x i inside
  rw [BitVec.getLsbD_not, decide_eq_true inside, Bool.true_and, Bool.not_eq_true'] at spread
  rw [Bool.eq_iff_iff, decide_eq_true_iff, BitManip.lt_ctz_iff inside, BitVec.getLsbD_and,
    BitVec.getLsbD_not, decide_eq_true inside, Bool.true_and, Bool.and_eq_true, Bool.not_eq_true']
  constructor
  · rintro ⟨masked, -⟩ j before
    by_contra set
    have found := spread.mpr ⟨i - j, by omega, by omega, by
      rw [Nat.sub_sub_self before]
      simpa using set⟩
    rw [masked] at found
    contradiction
  · intro clear
    refine ⟨?_, clear i (Nat.le_refl i)⟩
    by_contra unmasked
    obtain ⟨d, -, -, set⟩ := spread.mp (by simpa using unmasked)
    rw [clear _ (Nat.sub_le i d)] at set
    contradiction

/-- A count of at most 32 fits the counter. -/
theorem setWidth_count {n : Nat} {x : BitVec 32} (count : x.toNat = n) (small : n ≤ 32) :
    (BitVec.ofNat 6 n).setWidth 32 = x := by
  apply BitVec.eq_of_toNat_eq
  rw [BitVec.toNat_setWidth, BitVec.toNat_ofNat, count]
  omega

theorem bitcnt_ctz : (bitcntResult .ctz a b).setWidth 32 = a.ctz := by
  have bits : bitcntBits .ctz a b = bitcntBitMask .ctz a &&& ~~~a := rfl
  rw [bitcntResult_eq, bits, ones_below_lowest]
  exact setWidth_count rfl (BitManip.toNat_ctz_le a)

theorem bitcnt_clz : (bitcntResult .clz a b).setWidth 32 = a.clz := by
  have bits : bitcntBits .clz a b = bitcntBitMask .ctz a.reverse &&& ~~~a.reverse := rfl
  rw [bitcntResult_eq, bits, ones_below_lowest, BitVec.clz_eq_reverse_ctz]
  exact setWidth_count rfl (BitManip.toNat_ctz_le a.reverse)

theorem bitcnt_pcnt : (bitcntResult .pcnt a b).setWidth 32 = a.cpop := by
  have bits : bitcntBits .pcnt a b = a := rfl
  rw [bitcntResult_eq, bits]
  exact setWidth_count (BitVec.toNat_cpop a) (BitVec.cpopNatRec_zero_le a 32)

/-! ### Carry-less multiplication -/

theorem clmulResultRaw_eq : clmulResultRaw op a b first imd =
    BitManip.clmul (clmulOpA op a first imd) (clmulOpB op b first) := by
  unfold clmulResultRaw
  rw [BitManip.tree_eq BitVec.xor_assoc (fun _ => BitVec.zero_xor) (fun _ => BitVec.xor_zero)]
  exact BitManip.row_eq_clmul _ _

theorem clmulResult_clmul : clmulResult .clmul a b first imd = BitManip.clmul a b :=
  clmulResultRaw_eq

theorem clmulResult_clmulr : clmulResult .clmulr a b first imd = BitManip.clmulr a b := by
  have raw : clmulResultRaw .clmulr a b first imd = BitManip.clmul a.reverse b.reverse :=
    clmulResultRaw_eq
  rw [clmulResult, if_pos rfl, clmulResultRev, raw, BitManip.reverse_clmul_reverse]

theorem clmulResult_clmulh : clmulResult .clmulh a b first imd = BitManip.clmulh a b := by
  have raw : clmulResultRaw .clmulh a b first imd = BitManip.clmul a.reverse b.reverse :=
    clmulResultRaw_eq
  rw [clmulResult, if_neg (by decide), if_pos rfl, clmulResultRev, raw,
    BitManip.reverse_clmul_reverse, BitManip.ushiftRight_clmulr]

end Alu

/-! ## The unit computes the operations -/

section Unit

open Alu Operation

variable {o : Operation} {a b : BitVec 32} {first : Bool} {imd : BitVec 32 × BitVec 32}

theorem extractLsb'_low {n : Nat} : a.extractLsb' 0 n = a.setWidth n := by
  apply BitVec.eq_of_getLsbD_eq
  intro i inside
  simp [inside]

theorem extractLsb'_high {n m : Nat} : a.extractLsb' n m = (a >>> n).setWidth m := by
  apply BitVec.eq_of_getLsbD_eq
  intro i inside
  simp [inside]

/-- The smaller or the larger of two words, by what the comparator says. -/
theorem minmax_less {op : AluOp} {less : Bool} (compares : cmpResult op a b = !isGreaterEqual op a b)
    (value : (!isGreaterEqual op a b) = !!less) :
    minmaxResult op a b = if less then a else b := by
  rw [minmaxResult, compares, value, Bool.not_not]

theorem minmax_least {op : AluOp} {less : Bool} (compares : cmpResult op a b = isGreaterEqual op a b)
    (value : isGreaterEqual op a b = !less) :
    minmaxResult op a b = if less then b else a := by
  rw [minmaxResult, compares, value]
  cases less <;> rfl

/-- What does not shift is computed in either cycle. -/
theorem result_steady (built : o.combinational = true) (steady : o.shifts = false) :
    result o.op a b first imd = o.apply a b := by
  cases o <;> simp only [combinational, shifts, Bool.false_eq_true, Bool.true_eq_false] at built steady
  case andn => exact congrArg (a &&& ·) operandBNeg_upper
  case orn => exact congrArg (a ||| ·) operandBNeg_upper
  case xnor =>
      have negated : bwlogicResult .xnor a b first = a ^^^ ~~~b :=
        congrArg (a ^^^ ·) operandBNeg_upper
      exact negated.trans BitVec.not_xor_right.symm
  case clz => exact bitcnt_clz
  case ctz => exact bitcnt_ctz
  case pcnt => exact bitcnt_pcnt
  case sextB => exact congrArg (BitVec.signExtend 32) extractLsb'_low
  case sextH => exact congrArg (BitVec.signExtend 32) extractLsb'_low
  case clmul => exact clmulResult_clmul
  case clmulr => exact clmulResult_clmulr
  case clmulh => exact clmulResult_clmulh
  case min => exact minmax_less rfl (congrArg not (isGreaterEqual_eq rfl))
  case max => exact minmax_least rfl (isGreaterEqual_eq rfl)
  case minu => exact minmax_less rfl (congrArg not (isGreaterEqual_eq rfl))
  case maxu => exact minmax_least rfl (isGreaterEqual_eq rfl)
  case pack =>
      have packed : packResult .pack a b = b.extractLsb' 0 16 ++ a.extractLsb' 0 16 := rfl
      exact packed.trans (by rw [extractLsb'_low, extractLsb'_low]; rfl)
  case packu =>
      have packed : packResult .packu a b = b.extractLsb' 16 16 ++ a.extractLsb' 16 16 := rfl
      exact packed.trans (by rw [extractLsb'_high, extractLsb'_high]; rfl)
  case packh =>
      have packed : packResult .packh a b =
        0#16 ++ (b.extractLsb' 0 8 ++ a.extractLsb' 0 8) := rfl
      exact packed.trans (by
        rw [extractLsb'_low, extractLsb'_low]
        exact (BitVec.setWidth_eq_append (by decide)).symm)
  case bfp =>
      have placed : bfpResult .bfp a b first = (~~~shiftResult .bfp a b first &&& a) |||
          ((b &&& bfpMask b) <<< (bfpOff b).toNat) := rfl
      rw [shiftResult_bfp, bfpMask_eq, BitVec.and_comm (~~~_)] at placed
      exact placed

/-- What shifts is computed in the first cycle. -/
theorem result_first (built : o.combinational = true) (shifting : o.shifts = true) :
    result o.op a b true imd = o.apply a b := by
  cases o <;> simp only [combinational, shifts, Bool.false_eq_true] at built shifting
  case slo => exact shiftResult_slo
  case sro => exact shiftResult_sro
  case sbclr => exact congrArg (a &&& ~~~·) (shiftResult_single rfl)
  case sbset => exact congrArg (a ||| ·) (shiftResult_single rfl)
  case sbinv => exact congrArg (a ^^^ ·) (shiftResult_single rfl)
  case sbext =>
      have shifted : singlebitResult .sbext a b true =
          (BitVec.ofBool ((shiftResult .sbext a b true).getLsbD 0)).setWidth 32 := rfl
      rw [shiftResult_sbext, BitVec.getLsbD_ushiftRight] at shifted
      exact shifted
  case gorc => exact revResult_gorc
  case grev => exact revResult_grev
  case shfl => exact shuffleResult_shfl
  case unshfl => exact shuffleResult_unshfl

/-- **The unit computes every combinational operation**, those that shift in the first
cycle only. -/
theorem result_op (built : o.combinational = true) (fresh : first = true ∨ o.shifts = false) :
    result o.op a b first imd = o.apply a b := by
  cases shifting : o.shifts with
  | false => exact result_steady built shifting
  | true =>
    obtain rfl : first = true := by simpa [shifting] using fresh
    exact result_first built shifting

end Unit

end SnitchCluster.Ipu
