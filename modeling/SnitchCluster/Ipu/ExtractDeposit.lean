/-
# Ipu.ExtractDeposit -- bit extraction and deposit in two cycles

In the first cycle the unit counts the selected bits below every place and offers the
intermediate registers those bits of the counts that its network needs; in the second
the network moves the operand under the counts it finds there.  The adder trees complete
the counts (`bitcntPartial_eq`), the registers keep as much of each count as the segment
it steers is long (`bitcntPartialQ_mod`), so each stage is the exchange of the library
(`butterflyStage_eq`), and the network gathers or scatters (`extracts_and_deposits`).
-/
import SnitchCluster.Ipu.Operation
import SnitchCluster.Theory.Butterfly

namespace SnitchCluster.Ipu

open Theory
open Theory.BitManip (Counting joined onesBelow selected exchange permute)

namespace Alu

section Unit

variable {op : AluOp} {a b : BitVec 32} {imd : BitVec 32 × BitVec 32}

/-! ## The prefix counter -/

/-- The first stage counts pairs; the even places are still empty. -/
theorem bitcntFirst_counting (bits : BitVec 32) :
    Counting bits (fun i => if i % 2 = 1 then i - 1 else i + 1) (bitcntFirst bits) := by
  intro i inside
  by_cases odd : i % 2 = 1
  · obtain ⟨j, rfl⟩ : ∃ j, i = j + 1 := ⟨i - 1, by omega⟩
    simp only [bitcntFirst, if_pos odd, Nat.add_sub_cancel]
    refine ⟨by omega, ?_⟩
    rw [BitManip.onesBelow_succ, BitManip.onesBelow_succ, ← BitVec.ofNat_add]
    exact congrArg (BitVec.ofNat 6) (by omega)
  · simp [bitcntFirst, odd]

/-- The starts after all the stages of the two trees. -/
def starts : Nat → Nat :=
  let first := fun i => if i % 2 = 1 then i - 1 else i + 1
  let second := joined (fun i => i % 2 ^ 2 = 2 ^ 2 - 1) (2 ^ 1) first
  let third := joined (fun i => i % 2 ^ 3 = 2 ^ 3 - 1) (2 ^ 2) second
  let fourth := joined (fun i => i % 2 ^ 4 = 2 ^ 4 - 1) (2 ^ 3) third
  let fifth := joined (fun i => i % 2 ^ 5 = 2 ^ 5 - 1) (2 ^ 4) fourth
  let sixth := joined (fun i => 2 * 8 ≤ i ∧ i % (2 * 8) = 8 - 1) 8 fifth
  let seventh := joined (fun i => 2 * 4 ≤ i ∧ i % (2 * 4) = 4 - 1) 4 sixth
  joined (fun i => 2 * 2 ≤ i ∧ i % (2 * 2) = 2 - 1) 2 seventh

theorem starts_odd : ∀ i < 32, i % 2 = 1 → starts i = 0 := by decide

theorem counting_trees (bits : BitVec 32) : Counting bits starts
    (bitcntInner 2 (bitcntInner 4 (bitcntInner 8 (bitcntStage 5 (bitcntStage 4 (bitcntStage 3
      (bitcntStage 2 (bitcntFirst bits)))))))) := by
  have first := bitcntFirst_counting bits
  have second := first.add (p := fun i => i % 2 ^ 2 = 2 ^ 2 - 1) (d := 2 ^ 1) (by decide)
  have third := second.add (p := fun i => i % 2 ^ 3 = 2 ^ 3 - 1) (d := 2 ^ 2) (by decide)
  have fourth := third.add (p := fun i => i % 2 ^ 4 = 2 ^ 4 - 1) (d := 2 ^ 3) (by decide)
  have fifth := fourth.add (p := fun i => i % 2 ^ 5 = 2 ^ 5 - 1) (d := 2 ^ 4) (by decide)
  have sixth := fifth.add (p := fun i => 2 * 8 ≤ i ∧ i % (2 * 8) = 8 - 1) (d := 8) (by decide)
  have seventh := sixth.add (p := fun i => 2 * 4 ≤ i ∧ i % (2 * 4) = 4 - 1) (d := 4) (by decide)
  exact seventh.add (p := fun i => 2 * 2 ≤ i ∧ i % (2 * 2) = 2 - 1) (d := 2) (by decide)

/-- **The counter counts**: place `i` holds the number of set bits up to itself. -/
theorem bitcntPartial_eq {i : Nat} (inside : i < 32) :
    bitcntPartial op a b i = BitVec.ofNat 6 (onesBelow (bitcntBits op a b) (i + 1)) := by
  unfold bitcntPartial
  generalize bitcntBits op a b = bits
  have odd : ∀ j < 32, j % 2 = 1 → (bitcntInner 2 (bitcntInner 4 (bitcntInner 8 (bitcntStage 5
      (bitcntStage 4 (bitcntStage 3 (bitcntStage 2 (bitcntFirst bits)))))))) j =
        BitVec.ofNat 6 (onesBelow bits (j + 1)) := by
    intro j within place
    rw [(counting_trees bits j within).2, starts_odd j within place, BitManip.onesBelow_zero,
      Nat.sub_zero]
  by_cases place : i % 2 = 1
  · simp only [if_pos place, odd i inside place]
  · by_cases lowest : i = 0
    · subst lowest
      simp [BitManip.onesBelow_succ, BitManip.onesBelow_zero]
    · simp only [if_neg place, if_neg lowest]
      rw [odd (i - 1) (by omega) (by omega), show i - 1 + 1 = i by omega,
        BitManip.onesBelow_succ, BitVec.ofNat_add]

/-! ## The registers -/

variable (op a b) in
/-- A bit of a count that is kept comes back. -/
theorem bitcntPartialQ_kept {i k : Nat} (inside : i < 32) (low : k < 6) (kept : 2 ^ k ∣ i + 1) :
    (bitcntPartialQ (bitcntPartialLsbD op a b, bitcntPartialMsbD op a b) i).getLsbD k =
      (bitcntPartial op a b i).getLsbD k := by
  rw [bitcntPartialQ, BitManip.getLsbD_ofBits, decide_eq_true low, Bool.true_and]
  obtain ⟨t, place⟩ := kept
  simp only [bitcntPartialLsbD, bitcntPartialMsbD, BitManip.getLsbD_ofBits]
  interval_cases k
  · simp [inside]
  · have index : 2 * (i / 2) + 1 = i := by omega
    simp [show i % 2 = 1 by omega, show i / 2 < 32 by omega, show i / 2 < 16 by omega, index]
  · have index : 4 * (i / 4) + 3 = i := by omega
    simp [show i % 4 = 3 by omega, show 16 + i / 4 < 32 by omega, show ¬16 + i / 4 < 16 by omega,
      show 16 + i / 4 < 24 by omega, index]
  · have index : 8 * (i / 8) + 7 = i := by omega
    simp [show i % 8 = 7 by omega, show 24 + i / 8 < 32 by omega, show ¬24 + i / 8 < 16 by omega,
      show ¬24 + i / 8 < 24 by omega, show 24 + i / 8 < 28 by omega, index]
  · have index : 16 * (i / 16) + 15 = i := by omega
    simp [show i % 16 = 15 by omega, show 28 + i / 16 < 32 by omega,
      show ¬28 + i / 16 < 16 by omega, show ¬28 + i / 16 < 24 by omega,
      show ¬28 + i / 16 < 28 by omega, show 28 + i / 16 < 30 by omega, index]
  · obtain rfl : i = 31 := by omega
    simp

variable (op a b) in
/-- A count modulo twice the distance it steers, as it comes back. -/
theorem bitcntPartialQ_mod {i k : Nat} (inside : i < 32) (small : k < 5) (kept : 2 ^ k ∣ i + 1) :
    (bitcntPartialQ (bitcntPartialLsbD op a b, bitcntPartialMsbD op a b) i).toNat % 2 ^ (k + 1) =
      onesBelow (bitcntBits op a b) (i + 1) % 2 ^ (k + 1) := by
  apply Nat.eq_of_testBit_eq
  intro j
  rw [Nat.testBit_mod_two_pow, Nat.testBit_mod_two_pow]
  by_cases below : j < k + 1
  · have part : 2 ^ j ∣ i + 1 := (Nat.pow_dvd_pow 2 (by omega)).trans kept
    have bit := bitcntPartialQ_kept op a b inside (by omega : j < 6) part
    rw [bitcntPartial_eq inside, BitVec.getLsbD_ofNat, decide_eq_true (by omega : j < 6),
      Bool.true_and] at bit
    rw [BitVec.testBit_toNat, bit]
  · simp [below]

/-! ## The network -/

/-- The rotated ones are the complement of the exchanges. -/
theorem lrotcStage_eq {i k : Nat} (inside : i < 32) (small : k < 5) :
    lrotcStage (bitcntPartialLsbD op a b, bitcntPartialMsbD op a b) (2 ^ k) i =
      !(selected (bitcntBits op a b)).crosses (2 ^ k) i := by
  have double : 2 ^ (k + 1) = 2 * 2 ^ k := by rw [Nat.pow_succ, Nat.mul_comm]
  have positive := Nat.two_pow_pos k
  have split := Nat.div_add_mod i (2 * 2 ^ k)
  have offset : i - 2 * 2 ^ k * (i / (2 * 2 ^ k)) = i % (2 * 2 ^ k) := by omega
  -- the middle of the segment lies within the word
  have middle : 2 ^ k * (2 * (i / (2 * 2 ^ k)) + 1) ≤ 32 := by
    have room : i < 2 * 2 ^ k * (i / (2 * 2 ^ k)) + 2 * 2 ^ k := by
      have bound := Nat.mod_lt i (show 0 < 2 * 2 ^ k by omega)
      omega
    clear split offset double
    interval_cases k <;> omega
  have least : 0 < 2 ^ k * (2 * (i / (2 * 2 ^ k)) + 1) := Nat.mul_pos positive (by omega)
  have next : 2 ^ k * (2 * (i / (2 * 2 ^ k)) + 1) - 1 + 1 =
      2 ^ k * (2 * (i / (2 * 2 ^ k)) + 1) := by omega
  have kept : 2 ^ k ∣ 2 ^ k * (2 * (i / (2 * 2 ^ k)) + 1) - 1 + 1 := by
    rw [next]
    exact Nat.dvd_mul_right _ _
  have amount := bitcntPartialQ_mod op a b (by omega) small kept
  rw [next, double, ← BitManip.selected_count] at amount
  simp only [lrotcStage, BitManip.PrefixCount.crosses, Bool.not_not, offset, amount]
  congr 1
  rw [decide_eq_decide]
  omega

variable (op a b) in
/-- **Each stage exchanges what the counts say.** -/
theorem butterflyStage_eq {k : Nat} (small : k < 5) (x : BitVec 32) :
    butterflyStage (bitcntPartialLsbD op a b, bitcntPartialMsbD op a b) (2 ^ k) x =
      permute (exchange (2 ^ k) ((selected (bitcntBits op a b)).crosses (2 ^ k))) x := by
  have whole : 2 * 2 ^ k ∣ 32 := by
    rw [Nat.mul_comm, ← Nat.pow_succ]
    exact Nat.pow_dvd_pow 2 (show k + 1 ≤ 5 by omega)
  have positive := Nat.two_pow_pos k
  refine BitManip.masked_pairs positive whole (fun i inside => ?_) (fun i inside => ?_) x
  · rw [butterflyMaskL, BitManip.getLsbD_ofBits, decide_eq_true inside, lrotcStage_eq inside small]
    simp
  · rw [butterflyMaskR, BitManip.getLsbD_ofBits, decide_eq_true inside, Bool.true_and]
    by_cases lower : i % (2 * 2 ^ k) < 2 ^ k
    · obtain ⟨q, j, near, rfl | rfl⟩ := BitManip.pair_cases positive i
      · have above := (BitManip.pair_lt q whole near inside).1
        rw [lrotcStage_eq (by omega) small]
        simp
      · rw [BitManip.upper_mod q near] at lower
        omega
    · simp [lower]

variable {rest : BitVec 32 × BitVec 32}

variable (a b rest) in
/-- The first cycle of either operation counts the bits of the mask. -/
theorem imdValD_counts (gathers : op = .bext ∨ op = .bdep) :
    imdValD op a b true rest = (bitcntPartialLsbD op a b, bitcntPartialMsbD op a b) ∧
      bitcntBits op a b = b := by
  rcases gathers with rfl | rfl <;> exact ⟨rfl, rfl⟩

theorem butterflyResult_bdep :
    butterflyResult a b (imdValD .bdep a b true rest) = BitManip.bdep a b := by
  obtain ⟨offered, bits⟩ := imdValD_counts a b rest (.inr rfl)
  have stage := fun k (small : k < 5) => butterflyStage_eq .bdep a b small
  rw [bits] at stage
  rw [offered, ← BitManip.scatter_eq_bdep (m := 5) a b rfl]
  simp only [butterflyResult, List.foldl_cons, List.foldl_nil, BitManip.PrefixCount.scatter]
  rw [← stage 4 (by decide), ← stage 3 (by decide), ← stage 2 (by decide), ← stage 1 (by decide),
    ← stage 0 (by decide)]
  rfl

theorem invbutterflyResult_bext :
    invbutterflyResult a b (imdValD .bext a b true rest) = BitManip.bext a b := by
  obtain ⟨offered, bits⟩ := imdValD_counts a b rest (.inl rfl)
  have stage := fun k (small : k < 5) => butterflyStage_eq .bext a b small
  rw [bits] at stage
  rw [offered, ← BitManip.gather_eq_bext (m := 5) a b rfl]
  simp only [invbutterflyResult, List.foldl_cons, List.foldl_nil, BitManip.PrefixCount.gather]
  rw [← stage 4 (by decide), ← stage 3 (by decide), ← stage 2 (by decide), ← stage 1 (by decide),
    ← stage 0 (by decide)]
  rfl

end Unit

/-! ## Two cycles -/

/-- The result in the second cycle of an operation, the operands held and the registers
loaded with what the first cycle offered. -/
def secondCycle (op : AluOp) (a b : BitVec 32) (imd : BitVec 32 × BitVec 32) : BitVec 32 :=
  result op a b false (imdValD op a b true imd)

/-- **Two cycles extract and deposit**: the bits of `a` that `m` selects are packed at the
lower end, the lower bits of `a` are spread over the places `m` selects, and what is
extracted can be put back, whatever the registers held before. -/
theorem extracts_and_deposits (a m : BitVec 32) (imd imd' : BitVec 32 × BitVec 32) :
    secondCycle .bext a m imd = BitManip.bext a m ∧
      secondCycle .bdep a m imd = BitManip.bdep a m ∧
      secondCycle .bdep (secondCycle .bext a m imd) m imd' = a &&& m := by
  have extracts : ∀ x rest, secondCycle .bext x m rest = BitManip.bext x m := by
    intro x rest
    exact invbutterflyResult_bext
  have deposits : ∀ x rest, secondCycle .bdep x m rest = BitManip.bdep x m := by
    intro x rest
    exact butterflyResult_bdep
  refine ⟨extracts a imd, deposits a imd, ?_⟩
  rw [extracts, deposits, BitManip.bdep_bext]

example : secondCycle .bext 0b1011_0110 0b1101_0101 (0, 0) = 0b1_0110 := by decide +kernel

end Alu

end SnitchCluster.Ipu
