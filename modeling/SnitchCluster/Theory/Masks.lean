/-
# Theory.Masks -- sets of numbers given by an address and a mask

A number matches another under a mask if they agree on every bit that the mask leaves out.  The
numbers that match are a set as large as the mask has bits, in no order; they are an initial
segment exactly if the mask is a run of ones from the bottom (`matches_segment`, and its
converses for a target that is zero or one).
-/
import Mathlib.Algebra.Group.Nat.Defs
import Mathlib.Data.Nat.Bitwise

namespace SnitchCluster.Theory.Masks

/-- `i` agrees with `t` on the bits that the mask leaves out. -/
def Matches (mask t i : Nat) : Prop := ∀ j, mask.testBit j = false → i.testBit j = t.testBit j

/-- The words that a bus compares. -/
theorem matches_iff {n : Nat} {mask t i : BitVec n} :
    i &&& ~~~mask = t &&& ~~~mask ↔ Matches mask.toNat t.toNat i.toNat := by
  simp only [Matches, BitVec.testBit_toNat]
  constructor
  · intro same j out
    have bits := congrArg (fun x => x.getLsbD j) same
    by_cases inside : j < n
    · simpa only [BitVec.getLsbD_and, BitVec.getLsbD_not, out, inside, decide_true, Bool.not_false,
        Bool.and_true] using bits
    · simp [BitVec.getLsbD_of_ge, Nat.le_of_not_lt inside]
  · intro agree
    apply BitVec.eq_of_getLsbD_eq
    intro j inside
    cases out : mask.getLsbD j with
    | false => simp [out, agree j out]
    | true => simp [out]

/-- Bits below the mask that are equal play no part. -/
theorem matches_shift {w mask t i low : Nat} (small : low < 2 ^ w) :
    Matches (2 ^ w * mask) (2 ^ w * t + low) (2 ^ w * i + low) ↔ Matches mask t i := by
  constructor
  · intro agree j out
    have below : ¬w + j < w := by omega
    have bits := agree (w + j)
    simpa [Nat.testBit_two_pow_mul, Nat.testBit_two_pow_mul_add _ small, out, below] using bits
  · intro agree j out
    rw [Nat.testBit_two_pow_mul_add _ small, Nat.testBit_two_pow_mul_add _ small]
    split
    · rfl
    · next above =>
        apply agree
        simpa [Nat.testBit_two_pow_mul, Nat.le_of_not_lt above] using out

/-- Nor do equal bits above. -/
theorem matches_above {k mask t i high : Nat} (left : t < 2 ^ k) (right : i < 2 ^ k) :
    Matches mask (2 ^ k * high + t) (2 ^ k * high + i) ↔ Matches mask t i := by
  unfold Matches
  refine forall_congr' fun j => imp_congr_right fun _ => ?_
  rw [Nat.testBit_two_pow_mul_add _ left, Nat.testBit_two_pow_mul_add _ right]
  split
  · rfl
  · next above =>
      have far : 2 ^ k ≤ 2 ^ j := Nat.pow_le_pow_right (by omega) (Nat.le_of_not_lt above)
      simp [Nat.testBit_lt_two_pow (Nat.lt_of_lt_of_le left far),
        Nat.testBit_lt_two_pow (Nat.lt_of_lt_of_le right far)]

/-- A run of ones lets the bits below vary. -/
theorem matches_segment {m t i : Nat} (below : t < 2 ^ m) :
    Matches (2 ^ m - 1) t i ↔ i < 2 ^ m := by
  constructor
  · intro agree
    apply Nat.lt_pow_two_of_testBit
    intro j above
    rw [agree j (by simp [Nat.testBit_two_pow_sub_one, Nat.not_lt.mpr above])]
    exact Nat.testBit_lt_two_pow (Nat.lt_of_lt_of_le below (Nat.pow_le_pow_right (by omega) above))
  · intro small j out
    have above : m ≤ j := by simpa [Nat.testBit_two_pow_sub_one] using out
    have far : 2 ^ m ≤ 2 ^ j := Nat.pow_le_pow_right (by omega) above
    rw [Nat.testBit_lt_two_pow (Nat.lt_of_lt_of_le small far),
      Nat.testBit_lt_two_pow (Nat.lt_of_lt_of_le below far)]

/-- What matches zero is no larger than the mask. -/
theorem le_of_matches_zero {mask i : Nat} (agree : Matches mask 0 i) : i ≤ mask := by
  have inner : i &&& mask = i := by
    apply Nat.eq_of_testBit_eq
    intro j
    rw [Nat.testBit_and]
    cases out : mask.testBit j with
    | false => simpa using (agree j out).symm
    | true => simp
  exact inner ▸ Nat.and_le_right

/-- A number is a run of ones if it has every bit up to its highest. -/
theorem eq_ones {b : Nat} (bits : ∀ j, 2 ^ j ≤ b → b.testBit j = true) (pos : 0 < b) :
    ∃ m, b + 1 = 2 ^ (m + 1) := by
  refine ⟨b.log2, ?_⟩
  have ones : b = 2 ^ (b.log2 + 1) - 1 := by
    apply Nat.eq_of_testBit_eq
    intro j
    rw [Nat.testBit_two_pow_sub_one]
    by_cases here : j < b.log2 + 1
    · have reach : 2 ^ j ≤ b := Nat.le_trans (Nat.pow_le_pow_right (by omega) (by omega))
        (Nat.log2_self_le (by omega))
      simp [here, bits j reach]
    · have far : b < 2 ^ j := Nat.lt_of_lt_of_le (Nat.lt_log2_self)
        (Nat.pow_le_pow_right (by omega) (by omega))
      simp [here, Nat.testBit_lt_two_pow far]
  have room := Nat.one_le_two_pow (n := b.log2 + 1)
  omega

/-- If all numbers up to the mask match zero, but for one, the mask is a run of ones or the
exception is the low bit of the mask `2`. -/
theorem segment_zero {b c : Nat} (pos : 0 < c) (below : c ≤ b)
    (all : ∀ i ≤ b, i ≠ c → Matches b 0 i) : (∃ m, b + 1 = 2 ^ (m + 1)) ∨ (b = 2 ∧ c = 1) := by
  have bit : ∀ j, 2 ^ j ≤ b → 2 ^ j ≠ c → b.testBit j = true := by
    intro j low other
    by_contra out
    have zero := all _ low other j (by simpa using out)
    simp at zero
  by_cases whole : ∀ j, 2 ^ j ≤ b → b.testBit j = true
  · exact Or.inl (eq_ones whole (by omega))
  · right
    push Not at whole
    obtain ⟨j, low, out⟩ := whole
    have here : c = 2 ^ j := by
      by_contra other
      exact out (bit j low (Ne.symm other))
    have top : b.testBit b.log2 = true := Nat.testBit_log2 (by omega)
    have highest : 2 ^ b.log2 ≤ b := Nat.log2_self_le (by omega)
    have under : j < b.log2 := by
      by_contra least
      have same : j = b.log2 := by
        have reach : j < b.log2 + 1 := by
          by_contra far
          have := Nat.pow_le_pow_right (n := 2) (by omega) (Nat.not_lt.mp far)
          have := Nat.lt_log2_self (n := b)
          omega
        omega
      exact out (same ▸ top)
    -- the ones below the highest bit have the bit that is missing, so they are the exception
    have ones : 2 ^ b.log2 - 1 = c := by
      by_contra other
      have zero := all _ (by omega) other j (by simpa using out)
      simp [Nat.testBit_two_pow_sub_one, under] at zero
    obtain ⟨p, high⟩ : ∃ p, b.log2 = p + 1 := ⟨b.log2 - 1, by omega⟩
    have sum : 2 ^ j + 1 = 2 * 2 ^ p := by
      rw [high, Nat.pow_succ] at ones
      have := Nat.two_pow_pos p
      omega
    have first : j = 0 := by
      by_contra later
      obtain ⟨r, rfl⟩ : ∃ r, j = r + 1 := ⟨j - 1, by omega⟩
      rw [Nat.pow_succ] at sum
      omega
    subst first
    have bottom : 2 ^ p = 1 := by omega
    have even : b % 2 = 0 := by simpa using out
    have bound : b < 2 ^ (b.log2 + 1) := Nat.lt_log2_self
    rw [high, Nat.pow_succ, Nat.pow_succ, bottom] at bound
    rw [high, Nat.pow_succ, bottom] at highest
    omega

/-- If all positive numbers up to the mask match one, and nothing behind, the mask is a run of
ones. -/
theorem segment_one {b n : Nat} (below : b < n) (two : 2 ≤ n)
    (all : ∀ i < n, i ≠ 0 → (Matches b 1 i ↔ i ≤ b)) : ∃ m, b + 1 = 2 ^ (m + 1) := by
  have odd : b.testBit 0 = true := by
    by_contra even
    have low := Bool.not_eq_true _ ▸ even
    have zero : b = 0 := by
      by_contra pos
      have one := (all b below pos).mpr (Nat.le_refl b) 0 low
      rw [low] at one
      contradiction
    subst zero
    have none := (all 1 (by omega) (by omega)).mp fun _ _ => rfl
    omega
  apply eq_ones
  · intro j low
    by_contra out
    have high : j ≠ 0 := by
      rintro rfl
      exact out odd
    have pos := Nat.two_pow_pos j
    have one := (all (2 ^ j) (by omega) (by omega)).mpr low j (by simpa using out)
    rw [Nat.testBit_two_pow_self] at one
    exact high (Nat.testBit_one_eq_true_iff_self_eq_zero.mp one.symm)
  · by_contra none
    have zero : b = 0 := by omega
    simp [zero] at odd

end SnitchCluster.Theory.Masks
