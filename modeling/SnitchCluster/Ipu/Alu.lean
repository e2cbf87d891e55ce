/-
# Ipu.Alu -- the arithmetic unit of the integer subsystem

The unit of `snitch_ipu_alu.sv`, configured with all bit-manipulation operations
(`RV32BFull`): one adder, one right shifter, a bit counter, permutation networks and
a carry-less multiplier, and a multiplexer over their results.  Two-cycle operations
keep an intermediate value in registers outside the unit, which come in as `imd`.
-/
import SnitchCluster.Theory.BitManip
import Mathlib.Tactic.IntervalCases

namespace SnitchCluster.Ipu

open Theory

/-- `alu_op_e`, in the order of the package. -/
inductive AluOp
  | add | sub
  | xor | or | and | xnor | orn | andn
  | sra | srl | sll | sro | slo | ror | rol | grev | gorc | shfl | unshfl
  | lt | ltu | ge | geu | eq | ne | min | minu | max | maxu
  | pack | packu | packh
  | sextb | sexth
  | clz | ctz | pcnt
  | slt | sltu
  | cmov | cmix | fsl | fsr
  | sbset | sbclr | sbinv | sbext
  | bext | bdep
  | bfp
  | clmul | clmulr | clmulh
  | crc32B | crc32cB | crc32H | crc32cH | crc32W | crc32cW
  deriving DecidableEq, Repr

/-- The place of an operation in the enumeration. -/
def AluOp.code (op : AluOp) : BitVec 6 := BitVec.ofNat 6 op.ctorIdx

namespace Alu

section Unit

variable (op : AluOp) (a b : BitVec 32) (first : Bool) (imd : BitVec 32 × BitVec 32)

/-! ## Adder and comparator -/

def adderOpBNegate : Bool :=
  match op with
  | .sub | .eq | .ne | .ge | .geu | .lt | .ltu | .slt | .sltu | .min | .minu | .max | .maxu => true
  | _ => false

def operandBNeg : BitVec 33 := (b ++ 0#1) ^^^ BitVec.allOnes 33

def adderResult : BitVec 32 :=
  let adderInA : BitVec 33 := a ++ 1#1
  let adderInB : BitVec 33 := if adderOpBNegate op then operandBNeg b else b ++ 0#1
  (adderInA.setWidth 34 + adderInB.setWidth 34).extractLsb' 1 32

def cmpSigned : Bool :=
  match op with
  | .ge | .lt | .slt | .min | .max => true
  | _ => false

def isEqual : Bool := adderResult op a b == 0

def isGreaterEqual : Bool :=
  if (a.msb ^^ b.msb) = false then !(adderResult op a b).msb else a.msb ^^ cmpSigned op

def cmpResult : Bool :=
  match op with
  | .eq => isEqual op a b
  | .ne => !isEqual op a b
  | .ge | .geu | .max | .maxu => isGreaterEqual op a b
  | .lt | .ltu | .min | .minu | .slt | .sltu => !isGreaterEqual op a b
  | _ => isEqual op a b

/-! ## Shifter -/

def bfpLen : BitVec 5 := BitVec.ofBool (b.extractLsb' 24 4 == 0) ++ b.extractLsb' 24 4

def bfpOff : BitVec 5 := b.extractLsb' 16 5

def bfpMask : BitVec 32 := ~~~(0xffff_ffff#32 <<< (bfpLen b).toNat)

def shiftFunnel : Bool := op == .fsl || op == .fsr

def shiftAmtCompl : BitVec 6 := 32 - (b.extractLsb' 0 5).setWidth 6

/-- `shift_amt[4:0]`: the second cycle of a rotation shifts by the complement. -/
def shiftAmt : BitVec 5 :=
  let amount := b.extractLsb' 0 5
  let complement := (shiftAmtCompl b).setWidth 5
  let swapped := b.getLsbD 5 && shiftFunnel op
  if op = .bfp then bfpOff b
  else if first then (if swapped then complement else amount)
  else (if swapped then amount else complement)

/-- `shift_amt[5]`: the halves are swapped. -/
def shiftAmt5 : Bool := b.getLsbD 5 && shiftFunnel op

def shiftSbmode : Bool := op == .sbset || op == .sbclr || op == .sbinv

def shiftLeft : Bool :=
  shiftSbmode op ||
    match op with
    | .sll | .slo | .bfp => true
    | .rol => first
    | .ror => !first
    | .fsl => if shiftAmt5 op b then !first else first
    | .fsr => if shiftAmt5 op b then first else !first
    | _ => false

def shiftArith : Bool := op == .sra

def shiftOnes : Bool := op == .slo || op == .sro

/-- The word that is shifted right: reversed for a shift to the left. -/
def shiftInput : BitVec 32 :=
  if op = .bfp then (bfpMask b).reverse
  else if shiftSbmode op then 0x8000_0000
  else if shiftLeft op b first then a.reverse else a

def shiftResult : BitVec 32 :=
  let input := shiftInput op a b first
  let sign := shiftOnes op || (shiftArith op && input.msb)
  let shifted := ((BitVec.ofBool sign ++ input : BitVec 33).sshiftRight
    (shiftAmt op b first).toNat).setWidth 32
  if shiftLeft op b first then shifted.reverse else shifted

def bfpResult : BitVec 32 :=
  (~~~shiftResult op a b first &&& a) ||| ((b &&& bfpMask b) <<< (bfpOff b).toNat)

/-! ## Bitwise logic -/

def bwlogicOpBNegate : Bool :=
  match op with
  | .xnor | .orn | .andn => true
  | .cmix => !first
  | _ => false

def bwlogicResult : BitVec 32 :=
  let operandB := if bwlogicOpBNegate op first then (operandBNeg b).extractLsb' 1 32 else b
  if op = .or ∨ op = .orn then a ||| operandB
  else if op = .and ∨ op = .andn then a &&& operandB
  else a ^^^ operandB

/-! ## Bit counter -/

def bitcntMaskOp : BitVec 32 := if op = .clz then a.reverse else a

/-- The lowest set bit spread upwards, inverted. -/
def bitcntBitMask : BitVec 32 :=
  let mask := bitcntMaskOp op a
  let mask := mask ||| mask <<< 1
  let mask := mask ||| mask <<< 2
  let mask := mask ||| mask <<< 4
  let mask := mask ||| mask <<< 8
  let mask := mask ||| mask <<< 16
  ~~~mask

def bitcntBits : BitVec 32 :=
  if op = .bext ∨ op = .bdep then b
  else if op = .ctz ∨ op = .clz then bitcntBitMask op a &&& ~~~bitcntMaskOp op a
  else a

/-- The first stage adds the bits of odd places to their neighbours. -/
def bitcntFirst (bits : BitVec 32) (i : Nat) : BitVec 6 :=
  if i % 2 = 1 then
    BitVec.ofNat 6 (bits.getLsbD i).toNat + BitVec.ofNat 6 (bits.getLsbD (i - 1)).toNat
  else 0

/-- Stage `n`, at the places one below a multiple of `2 ^ n`. -/
def bitcntStage (n : Nat) (partials : Nat → BitVec 6) (i : Nat) : BitVec 6 :=
  if i % 2 ^ n = 2 ^ n - 1 then partials (i - 2 ^ (n - 1)) + partials i else partials i

/-- `bitcnt_partial[31]`, the end of the adder tree. -/
def bitcntResult : BitVec 6 :=
  let bits := bitcntBits op a b
  bitcntStage 5 (bitcntStage 4 (bitcntStage 3 (bitcntStage 2 (bitcntFirst bits)))) 31

/-- A stage of the second tree adds what is counted `n` places below. -/
def bitcntInner (n : Nat) (partials : Nat → BitVec 6) (i : Nat) : BitVec 6 :=
  if 2 * n ≤ i ∧ i % (2 * n) = n - 1 then partials (i - n) + partials i else partials i

/-- `bitcnt_partial`: the second tree completes the odd places, the even ones add their bit. -/
def bitcntPartial (i : Nat) : BitVec 6 :=
  let bits := bitcntBits op a b
  let primary := bitcntStage 5 (bitcntStage 4 (bitcntStage 3 (bitcntStage 2 (bitcntFirst bits))))
  let partials := bitcntInner 2 (bitcntInner 4 (bitcntInner 8 primary))
  let bit := BitVec.ofNat 6 (bits.getLsbD i).toNat
  if i % 2 = 1 then partials i else if i = 0 then bit else partials (i - 1) + bit

/-! ## Minimum and maximum, packing, extension, single bits -/

def minmaxResult : BitVec 32 := if cmpResult op a b then a else b

def packResult : BitVec 32 :=
  if op = .packu then b.extractLsb' 16 16 ++ a.extractLsb' 16 16
  else if op = .packh then 0#16 ++ (b.extractLsb' 0 8 ++ a.extractLsb' 0 8)
  else b.extractLsb' 0 16 ++ a.extractLsb' 0 16

def sextResult : BitVec 32 :=
  if op = .sextb then (a.extractLsb' 0 8).signExtend 32 else (a.extractLsb' 0 16).signExtend 32

def singlebitResult : BitVec 32 :=
  match op with
  | .sbset => a ||| shiftResult op a b first
  | .sbclr => a &&& ~~~shiftResult op a b first
  | .sbinv => a ^^^ shiftResult op a b first
  | _ => (BitVec.ofBool ((shiftResult op a b first).getLsbD 0)).setWidth 32

/-! ## Permutation networks -/

/-- One stage of `rev_result`. -/
def revStage (n : Nat) (even odd : BitVec 32) (on : Bool) (x : BitVec 32) : BitVec 32 :=
  if on then
    (if op = .gorc then x else 0) ||| (((x &&& even) <<< n) ||| ((x &&& odd) >>> n))
  else x

def revResult : BitVec 32 :=
  let amount := shiftAmt op b first
  let x := revStage op 1 0x5555_5555 0xaaaa_aaaa (amount.getLsbD 0) a
  let x := revStage op 2 0x3333_3333 0xcccc_cccc (amount.getLsbD 1) x
  let x := revStage op 4 0x0f0f_0f0f 0xf0f0_f0f0 (amount.getLsbD 2) x
  let x := revStage op 8 0x00ff_00ff 0xff00_ff00 (amount.getLsbD 3) x
  revStage op 16 0x0000_ffff 0xffff_0000 (amount.getLsbD 4) x

/-- `FlipMaskL` and `FlipMaskR`: the order of the index bits is turned around. -/
def shuffleFlip (x : BitVec 32) : BitVec 32 :=
  (x &&& 0x8822_4411#32) |||
    (x <<< 6 &&& 0x2200_1100#32) ||| (x >>> 6 &&& 0x0088_0044#32) |||
    (x <<< 9 &&& 0x0044_0000#32) ||| (x >>> 9 &&& 0x0000_2200#32) |||
    (x <<< 15 &&& 0x4411_0000#32) ||| (x >>> 15 &&& 0x0000_8822#32) |||
    (x <<< 21 &&& 0x1100_0000#32) ||| (x >>> 21 &&& 0x0000_0088#32)

/-- One stage of `shuffle_result`, with `ShuffleMaskL` and `ShuffleMaskR`. -/
def shuffleStage (n : Nat) (up down : BitVec 32) (on : Bool) (x : BitVec 32) : BitVec 32 :=
  if on then (x &&& ~~~(up ||| down)) ||| ((x <<< n &&& up) ||| (x >>> n &&& down)) else x

/-- The four stages, each under its bit of `shuffle_mode`. -/
def shuffleStages (mode : Nat → Bool) (x : BitVec 32) : BitVec 32 :=
  let x := shuffleStage 8 0x00ff_0000 0x0000_ff00 (mode 3) x
  let x := shuffleStage 4 0x0f00_0f00 0x00f0_00f0 (mode 2) x
  let x := shuffleStage 2 0x3030_3030 0x0c0c_0c0c (mode 1) x
  shuffleStage 1 0x4444_4444 0x2222_2222 (mode 0) x

def shuffleResult : BitVec 32 :=
  let amount := shiftAmt op b first
  if op = .unshfl then
    shuffleFlip (shuffleStages (fun k => amount.getLsbD (3 - k)) (shuffleFlip a))
  else shuffleStages amount.getLsbD a

/-- The bits of the counts the network needs, packed into two words. -/
def bitcntPartialLsbD : BitVec 32 :=
  BitManip.ofBits (fun i => (bitcntPartial op a b i).getLsbD 0) 32

def bitcntPartialMsbD : BitVec 32 :=
  BitManip.ofBits (fun i =>
    if i < 16 then (bitcntPartial op a b (2 * i + 1)).getLsbD 1
    else if i < 24 then (bitcntPartial op a b (4 * (i - 16) + 3)).getLsbD 2
    else if i < 28 then (bitcntPartial op a b (8 * (i - 24) + 7)).getLsbD 3
    else if i < 30 then (bitcntPartial op a b (16 * (i - 28) + 15)).getLsbD 4
    else if i = 30 then (bitcntPartial op a b 31).getLsbD 5
    else false) 32

/-- `bitcnt_partial_q`, gathered from the intermediate registers. -/
def bitcntPartialQ (i : Nat) : BitVec 6 :=
  BitManip.ofBits (fun k =>
    if k = 0 then imd.1.getLsbD i
    else if k = 1 then i % 2 == 1 && imd.2.getLsbD (i / 2)
    else if k = 2 then i % 4 == 3 && imd.2.getLsbD (16 + i / 4)
    else if k = 3 then i % 8 == 7 && imd.2.getLsbD (24 + i / 8)
    else if k = 4 then i % 16 == 15 && imd.2.getLsbD (28 + i / 16)
    else i == 31 && imd.2.getLsbD 30) 6

/-- Bit `i` of `lrotc_stage`: `n` ones in a segment of `2 * n` bits, shifted by the ones
counted below the middle of the segment. -/
def lrotcStage (n i : Nat) : Bool :=
  let seg := i / (2 * n)
  let offset := i - 2 * n * seg
  let amount := (bitcntPartialQ imd (n * (2 * seg + 1) - 1)).toNat % (2 * n)
  decide (amount ≤ offset) && decide (offset - amount < n)

def butterflyMaskL (n : Nat) : BitVec 32 :=
  BitManip.ofBits (fun i => decide (n ≤ i % (2 * n)) && !lrotcStage imd n i) 32

def butterflyMaskR (n : Nat) : BitVec 32 :=
  BitManip.ofBits (fun i => decide (i % (2 * n) < n) && !lrotcStage imd n (i + n)) 32

/-- One stage of the butterfly network, of distance `n`. -/
def butterflyStage (n : Nat) (x : BitVec 32) : BitVec 32 :=
  let left := butterflyMaskL imd n
  let right := butterflyMaskR imd n
  (x &&& ~~~(left ||| right)) ||| ((x &&& left) >>> n) ||| ((x &&& right) <<< n)

def butterflyResult : BitVec 32 :=
  ([16, 8, 4, 2, 1].foldl (fun x n => butterflyStage imd n x) a) &&& b

def invbutterflyResult : BitVec 32 :=
  [1, 2, 4, 8, 16].foldl (fun x n => butterflyStage imd n x) (a &&& b)

/-! ## Carry-less multiplication and redundancy checks -/

def crcBmode : Bool := op == .crc32B || op == .crc32cB

def crcHmode : Bool := op == .crc32H || op == .crc32cH

def crcCpoly : Bool := op == .crc32cW || op == .crc32cH || op == .crc32cB

def crcOp : Bool := crcBmode op || crcHmode op || op == .crc32W || op == .crc32cW

def crcPoly : BitVec 32 := if crcCpoly op then 0x1edc_6f41 else 0x04c1_1db7

def crcMuRev : BitVec 32 := if crcCpoly op then 0xdea7_13f1 else 0xf701_1641

def crcOperand : BitVec 32 :=
  if crcBmode op then a.extractLsb' 0 8 ++ 0#24
  else if crcHmode op then a.extractLsb' 0 16 ++ 0#16
  else a

def clmulOpA : BitVec 32 :=
  if crcOp op then (if first then crcOperand op a else imd.1)
  else if op = .clmulr ∨ op = .clmulh then a.reverse else a

def clmulOpB : BitVec 32 :=
  if crcOp op then (if first then crcMuRev op else crcPoly op)
  else if op = .clmulr ∨ op = .clmulh then b.reverse else b

/-- The shifted copies, added up in a tree of five levels. -/
def clmulResultRaw : BitVec 32 :=
  BitManip.tree (· ^^^ ·) (fun i => if (clmulOpB op b first).getLsbD i
    then clmulOpA op a first imd <<< i else 0) 5 0

def clmulResultRev : BitVec 32 := (clmulResultRaw op a b first imd).reverse

def clmulResult : BitVec 32 :=
  if op = .clmulr then clmulResultRev op a b first imd
  else if op = .clmulh then clmulResultRev op a b first imd >>> 1
  else clmulResultRaw op a b first imd

/-! ## The result -/

/-- `multicycle_result`: rotations, funnel shifts and ternary operations are commented
out in the source and yield zero. -/
def multicycleResult : BitVec 32 :=
  if crcBmode op then clmulResultRev op a b first imd ^^^ a >>> 8
  else if crcHmode op then clmulResultRev op a b first imd ^^^ a >>> 16
  else if crcOp op then clmulResultRev op a b first imd
  else if op = .bdep then butterflyResult a b imd
  else if op = .bext then invbutterflyResult a b imd
  else 0

/-- `imd_val_d_o`: what the intermediate registers are offered. -/
def imdValD : BitVec 32 × BitVec 32 :=
  if crcOp op then (clmulResultRev op a b first imd, 0)
  else if op = .bext ∨ op = .bdep then (bitcntPartialLsbD op a b, bitcntPartialMsbD op a b)
  else (a, 0)

def result : BitVec 32 :=
  match op with
  | .xor | .xnor | .or | .orn | .and | .andn => bwlogicResult op a b first
  | .add | .sub => adderResult op a b
  | .sll | .srl | .sra | .slo | .sro => shiftResult op a b first
  | .shfl | .unshfl => shuffleResult op a b first
  | .eq | .ne | .ge | .geu | .lt | .ltu | .slt | .sltu =>
    (BitVec.ofBool (cmpResult op a b)).setWidth 32
  | .min | .max | .minu | .maxu => minmaxResult op a b
  | .clz | .ctz | .pcnt => (bitcntResult op a b).setWidth 32
  | .pack | .packh | .packu => packResult op a b
  | .sextb | .sexth => sextResult op a
  | .cmix | .cmov | .fsl | .fsr | .rol | .ror | .crc32W | .crc32cW | .crc32H | .crc32cH
  | .crc32B | .crc32cB | .bext | .bdep => multicycleResult op a b first imd
  | .sbset | .sbclr | .sbinv | .sbext => singlebitResult op a b first
  | .grev | .gorc => revResult op a b first
  | .bfp => bfpResult op a b first
  | .clmul | .clmulr | .clmulh => clmulResult op a b first imd

end Unit

end Alu

end SnitchCluster.Ipu
