/-
# Ipu.SingleCycle -- what the single-cycle instructions return

An instruction the subsystem decodes as one of a single cycle is answered in the cycle it
is presented, with what the arithmetic unit makes of its operands.  The unit computes all
of them but two: rotations share the multiplexer of the two-cycle operations, where their
arm is commented out, and return zero.  And it takes the cycle from a flag that a
two-cycle operation before may have left high; what shifts then goes by the complement of
its amount (`result_second`).  So the answer is right exactly where neither shows
(`returns_iff`).
-/
import SnitchCluster.Ipu.Responses

namespace SnitchCluster.Ipu

open Theory
open Theory.BitPat
open SnitchCluster.Core.Instr

namespace Operation

/-- The instructions of a single cycle. -/
def singleCycle : Operation → Bool
  | crc32B | crc32H | crc32W | crc32cB | crc32cH | crc32cW | clmul | clmulr | clmulh | bext
  | bdep => false
  | _ => true

/-- Rotations. -/
def rotates : Operation → Bool
  | rol | ror => true
  | _ => false

/-- When the unit returns what the operation computes: a rotation, of nothing; what
shifts, with the flag of the second cycle low, or by an amount whose complement moves
the operand to the same. -/
def Returned (o : Operation) (active : Bool) (a b : BitVec 32) : Prop :=
  (o.rotates = true → a = 0) ∧
    (active = true ∧ o.shifts = true → o.apply a (-b) = o.apply a b)

end Operation

/-! ## The unit -/

namespace Alu

open Operation

variable {op : AluOp} {o : Operation} {a b : BitVec 32} {first : Bool}
  {imd : BitVec 32 × BitVec 32}

/-- The amount of the second cycle is the one of the negated operand. -/
theorem shiftAmt_second (noField : op ≠ .bfp) (noFunnel : shiftFunnel op = false) :
    shiftAmt op b false = shiftAmt op (-b) true := by
  simp only [shiftAmt, noField, noFunnel, Bool.and_false, if_false, if_true, Bool.false_eq_true]
  apply BitVec.eq_of_toNat_eq
  simp only [shiftAmtCompl, BitVec.toNat_setWidth, BitVec.toNat_sub, BitVec.extractLsb'_toNat,
    BitVec.toNat_neg, Nat.shiftRight_zero]
  have bound := b.isLt
  have whole : (32 : BitVec 6).toNat = 32 := rfl
  omega

/-- The shifter sees the cycle in the amount only. -/
theorem shiftResult_second (shifting : o.shifts = true)
    (amount : shiftAmt o.op b false = shiftAmt o.op (-b) true) :
    shiftResult o.op a b false = shiftResult o.op a (-b) true := by
  have direction : shiftLeft o.op b false = shiftLeft o.op (-b) true := by
    cases o <;> simp only [shifts, Bool.false_eq_true] at shifting <;>
      simp [shiftLeft, shiftSbmode, Operation.op]
  have field : o.op ≠ .bfp := by
    cases o <;> simp only [shifts, Bool.false_eq_true] at shifting <;> decide
  have input : shiftInput o.op a b false = shiftInput o.op a (-b) true := by
    simp [shiftInput, field, direction]
  rw [shiftResult, shiftResult, input, direction, amount]

/-- **What shifts goes by the complement in the second cycle.** -/
theorem result_second (shifting : o.shifts = true) :
    result o.op a b false imd = o.apply a (-b) := by
  have built : o.combinational = true := by
    cases o <;> simp only [shifts, Bool.false_eq_true] at shifting <;> rfl
  have amount : shiftAmt o.op b false = shiftAmt o.op (-b) true := by
    apply shiftAmt_second <;> cases o <;>
      simp only [shifts, Bool.false_eq_true] at shifting <;> decide
  have shifter := shiftResult_second (a := a) shifting amount
  have reverser : revResult o.op a b false = revResult o.op a (-b) true := by
    rw [revResult, revResult, amount]
  have shuffler : shuffleResult o.op a b false = shuffleResult o.op a (-b) true := by
    rw [shuffleResult, shuffleResult, amount]
  rw [← @result_first o a (-b) imd built shifting]
  cases o <;> simp only [shifts, Bool.false_eq_true] at shifting
  case slo | sro => exact shifter
  case sbclr => exact congrArg (a &&& ~~~·) shifter
  case sbset => exact congrArg (a ||| ·) shifter
  case sbinv => exact congrArg (a ^^^ ·) shifter
  case sbext => exact congrArg (fun x => (BitVec.ofBool (x.getLsbD 0)).setWidth 32) shifter
  case gorc | grev => exact reverser
  case shfl | unshfl => exact shuffler

/-- A rotation goes to a multiplexer without an arm for it. -/
theorem result_rotates (rotating : o.rotates = true) : result o.op a b first imd = 0 := by
  cases o <;> simp only [rotates, Bool.false_eq_true] at rotating <;> rfl

/-- **What the operations undo**, in the first cycle: a shuffle is undone by its inverse,
a general reverse by itself, and a word without bits has 32 zeros at either end; but a
rotation is undone only where there is nothing to rotate. -/
theorem undoes : result .unshfl (result .shfl a b true imd) b true imd = a ∧
    result .grev (result .grev a b true imd) b true imd = a ∧
    result .clz 0 b true imd = 32 ∧ result .ctz 0 b true imd = 32 ∧
    (result .ror (result .rol a b true imd) b true imd = a ↔ a = 0) := by
  have width : (32 : Nat) = 2 ^ 5 := rfl
  have amount : (b.extractLsb' 0 5).toNat < 32 := (b.extractLsb' 0 5).isLt
  have computed : ∀ (o : Operation) (x y : BitVec 32), o.combinational = true →
      result o.op x y true imd = o.apply x y := by
    intro o x y built
    exact result_op built (.inl rfl)
  have shuffled := computed shfl a b rfl
  have restored := computed unshfl (result .shfl a b true imd) b rfl
  have reversed := computed grev a b rfl
  have back := computed grev (result .grev a b true imd) b rfl
  simp only [Operation.op, apply] at shuffled restored reversed back
  refine ⟨?_, ?_, ?_, ?_, ?_⟩
  · rw [restored, shuffled]
    exact BitManip.unshfl_shfl width a _
  · rw [back, reversed]
    exact BitManip.grev_self width a amount
  · exact (computed clz 0 b rfl).trans (BitVec.clz_eq_iff_eq_zero.mpr rfl)
  · exact (computed ctz 0 b rfl).trans BitManip.ctz_zero
  · rw [eq_comm]
    rfl

end Alu

/-! ## The subsystem -/

/-- A word that names an operation, the reversed product apart, meets its arm. -/
theorem decode_operation {dataOp : BitVec 32} {o : Operation}
    (named : operationOf dataOp = some o) (other : o ≠ .clmulr) : decode dataOp = expected o := by
  rcases firstMatch_mem (operations.map fun arm => (arm.1, some arm.2)) none dataOp with
    missed | ⟨arm, present, hit, taken⟩
  · rw [operationOf, missed] at named
    contradiction
  · obtain ⟨row, listed, rfl⟩ := List.mem_map.mp present
    obtain ⟨p, among, met⟩ := List.any_eq_true.mp hit
    obtain rfl : row.2 = o := by
      rw [operationOf, taken] at named
      exact Option.some.inj named
    obtain ⟨⟨arm, member, within, value⟩, others⟩ :=
      decoderArms_operations row listed other p among
    rw [decode, firstMatch_value member within (value ▸ others) _ met, value]

theorem expected_of_single {o : Operation} (single : o.singleCycle = true) :
    expected o = Dec.fromAcc o.op ∧ o ≠ .clmulr := by
  cases o <;> simp only [Operation.singleCycle, Bool.false_eq_true] at single <;>
    exact ⟨rfl, by decide⟩

/-- The unit returns what the operation computes exactly under the condition. -/
theorem result_iff {o : Operation} {a b : BitVec 32} {active : Bool}
    {imd : BitVec 32 × BitVec 32} (single : o.singleCycle = true) :
    Alu.result o.op a b (!active) imd = o.apply a b ↔ o.Returned active a b := by
  unfold Operation.Returned
  cases rotating : o.rotates with
  | true =>
    have amount : (b.extractLsb' 0 5).toNat < 32 := (b.extractLsb' 0 5).isLt
    have steady : o.shifts = false := by
      cases o <;> simp only [Operation.rotates, Bool.false_eq_true] at rotating <;> rfl
    have empty : o.apply a b = 0 ↔ a = 0 := by
      cases o <;> simp only [Operation.rotates, Bool.false_eq_true] at rotating
      case rol => exact BitManip.rotateLeft_eq_zero amount
      case ror => exact BitManip.rotateRight_eq_zero amount
    rw [Alu.result_rotates rotating, eq_comm, empty]
    simp [steady]
  | false =>
    have built : o.combinational = true := by
      cases o <;> simp only [Operation.singleCycle, Operation.rotates, Bool.false_eq_true,
        Bool.true_eq_false] at single rotating <;> rfl
    cases shifting : o.shifts with
    | false => simp [result_steady built shifting]
    | true =>
      cases active with
      | false => simp [result_first built shifting]
      | true => simp [Alu.result_second shifting]

namespace IntSs

variable {Id : Type} {s : IntSs} {i : Input Id} {o : Operation}

/-- The operands on the accelerator bus. -/
def arga (i : Input Id) : BitVec 32 := i.accReq.dataArga.setWidth 32

def argb (i : Input Id) : BitVec 32 := i.accReq.dataArgb.setWidth 32

/-- The response that carries what the operation makes of the operands. -/
def computed (o : Operation) (i : Input Id) : AccResp Id where
  id := i.accReq.id
  error := false
  data := (o.apply (arga i) (argb i)).setWidth 64

/-- **The answer is right exactly where neither slip shows**: a request for a single-cycle
operation is answered with what the operation makes of its operands unless the operation
rotates a word that is not empty, or shifts, in the cycle marked as the second one, by an
amount whose complement moves the operand elsewhere. -/
theorem returns_iff (valid : i.accReqValid = true) (named : operationOf i.accReq.dataOp = some o)
    (single : o.singleCycle = true) :
    (s.accRespValid i = true ∧ s.accResp i = computed o i) ↔
      o.Returned s.multicycleActive (arga i) (argb i) := by
  obtain ⟨arm, other⟩ := expected_of_single single
  have taken : dec i = Dec.fromAcc o.op := (decode_operation named other).trans arm
  have value : s.aluResult i = Alu.result o.op (arga i) (argb i) (!s.multicycleActive) s.imdVal := by
    unfold aluResult aluOperand0 aluOperand1
    rw [taken]
    rfl
  have answered : s.accRespValid i = true := by
    rw [accRespValid, validInst, taken, valid]
    rfl
  have response : s.accResp i = { computed o i with data := (s.aluResult i).setWidth 64 } := by
    rw [accResp, taken]
    rfl
  rw [← @result_iff o _ _ _ s.imdVal single, ← value, response]
  constructor
  · rintro ⟨-, same⟩
    have data := congrArg AccResp.data same
    simpa [computed] using congrArg (BitVec.setWidth 32) data
  · intro same
    rw [same]
    exact ⟨answered, rfl⟩

/-- `andn x1, x2, x3` is answered with the bits of one operand outside the other, ... -/
theorem returns_iff_andn : ({} : IntSs).accRespValid (andnIn true) = true ∧
    ({} : IntSs).accResp (andnIn true) = { id := 1, error := false, data := 0xf0 } := by
  have condition : Operation.andn.Returned false (arga (andnIn true)) (argb (andnIn true)) := by
    constructor <;> decide
  obtain ⟨answered, response⟩ :=
    (returns_iff (s := {}) (i := andnIn true) (o := .andn) rfl (by decide) rfl).mpr condition
  exact ⟨answered, response.trans (by decide)⟩

/-- `rol x1, x2, x3`, of 1 by 4. -/
def rolIn : Input (BitVec 5) where
  accReq := { id := 1, dataOp := 0x603110b3, dataArga := 1, dataArgb := 4 }
  accReqValid := true
  accRespReady := true

/-- ... but a rotation with zero. -/
theorem rotation_lost : ¬∀ (s : IntSs) (i : Input (BitVec 5)) (o : Operation),
    i.accReqValid = true → Offloaded i.accReq.dataOp → operationOf i.accReq.dataOp = some o →
      o.singleCycle = true → s.accRespValid i = true ∧ s.accResp i = computed o i := by
  intro always
  have offloaded : Offloaded rolIn.accReq.dataOp :=
    ⟨Core.smallCfg, Core.PrivLvlM, false, ⟨false, false⟩, by decide⟩
  have data := congrArg AccResp.data
    (always {} rolIn .rol rfl offloaded (by decide) rfl).2
  revert data
  decide

end IntSs

end SnitchCluster.Ipu
