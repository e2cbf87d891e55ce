/-
# Theory.BitLinear -- maps of words that respect exclusive or

Carry-less products, shifts, reversal and redundancy checks are linear over the field of
two elements: the image of an exclusive or is the exclusive or of the images (`Linear`).
Such a map is known from the words of one bit (`Linear.ext`), so two circuits of this
kind agree on all words once they agree on those.
-/
import SnitchCluster.Theory.BitManip

namespace SnitchCluster.Theory

namespace BitManip

variable {w v u : Nat}

/-- A map that takes exclusive or to exclusive or. -/
def Linear (f : BitVec w → BitVec v) : Prop := ∀ x y, f (x ^^^ y) = f x ^^^ f y

/-- The lower `n` bits of a word. -/
def lowBits (n : Nat) (x : BitVec w) : BitVec w := ofBits (fun i => decide (i < n) && x.getLsbD i) w

theorem lowBits_zero (x : BitVec w) : lowBits 0 x = 0#w := by
  apply BitVec.eq_of_getLsbD_eq
  intro i inside
  simp [lowBits]

theorem lowBits_all (x : BitVec w) : lowBits w x = x := by
  apply BitVec.eq_of_getLsbD_eq
  intro i inside
  simp [lowBits, inside]

/-- One bit more. -/
theorem lowBits_succ (n : Nat) (x : BitVec w) :
    lowBits (n + 1) x = lowBits n x ^^^ if x.getLsbD n then 1#w <<< n else 0#w := by
  apply BitVec.eq_of_getLsbD_eq
  intro i inside
  have bit : (if x.getLsbD n then 1#w <<< n else 0#w).getLsbD i =
      (x.getLsbD n && decide (n = i)) := by
    cases x.getLsbD n with
    | false => simp
    | true =>
      have power : (1#w <<< n).getLsbD i = (decide (n < w) && decide (n = i)) :=
        BitVec.getLsbD_twoPow n i
      rw [if_pos rfl, power, Bool.true_and]
      by_cases here : n = i
      · rw [decide_eq_true here, decide_eq_true (by omega), Bool.true_and]
      · rw [decide_eq_false here, Bool.and_false]
  rw [BitVec.getLsbD_xor, bit, lowBits, lowBits, getLsbD_ofBits, getLsbD_ofBits,
    decide_eq_true inside, Bool.true_and, Bool.true_and]
  rcases Nat.lt_trichotomy i n with below | rfl | above
  · rw [decide_eq_true below, decide_eq_true (Nat.lt_succ_of_lt below),
      decide_eq_false (Nat.ne_of_gt below), Bool.and_false, Bool.xor_false]
  · simp
  · rw [decide_eq_false (Nat.not_lt_of_lt above), decide_eq_false (by omega),
      decide_eq_false (Nat.ne_of_lt above)]
    simp

namespace Linear

variable {f g : BitVec w → BitVec v}

theorem zero (linear : Linear f) : f 0#w = 0#v := by
  have twice := linear 0#w 0#w
  rw [BitVec.xor_self, BitVec.xor_self] at twice
  exact twice

theorem id : Linear (fun x : BitVec w => x) := fun _ _ => rfl

theorem comp {h : BitVec u → BitVec w} (outer : Linear f) (inner : Linear h) :
    Linear fun x => f (h x) := by
  intro x y
  simp only [inner x y, outer (h x) (h y)]

theorem xor (left : Linear f) (right : Linear g) : Linear fun x => f x ^^^ g x := by
  intro x y
  simp only [left x y, right x y]
  ac_rfl

theorem ushiftRight (linear : Linear f) (n : Nat) : Linear fun x => f x >>> n := by
  intro x y
  simp only [linear x y, BitVec.ushiftRight_xor_distrib]

theorem shiftLeft (linear : Linear f) (n : Nat) : Linear fun x => f x <<< n := by
  intro x y
  simp only [linear x y, BitVec.shiftLeft_xor_distrib]

theorem reverse (linear : Linear f) : Linear fun x => (f x).reverse := by
  intro x y
  simp only [linear x y]
  apply BitVec.eq_of_getLsbD_eq
  intro i inside
  rw [BitVec.getLsbD_xor, BitVec.getLsbD_reverse, BitVec.getLsbD_reverse, BitVec.getLsbD_reverse,
    BitVec.getMsbD_xor]

theorem iterate {f : BitVec w → BitVec w} (linear : Linear f) (n : Nat) : Linear f^[n] := by
  induction n with
  | zero => exact id
  | succ n ih => exact ih.comp linear

/-- **Linear maps agree if they agree on the words of one bit.** -/
theorem ext (left : Linear f) (right : Linear g)
    (single : ∀ i < w, f (1#w <<< i) = g (1#w <<< i)) (x : BitVec w) : f x = g x := by
  have prefixes : ∀ n ≤ w, f (lowBits n x) = g (lowBits n x) := by
    intro n
    induction n with
    | zero =>
      intro _
      rw [lowBits_zero, left.zero, right.zero]
    | succ n ih =>
      intro within
      rw [lowBits_succ, left, right, ih (by omega)]
      cases x.getLsbD n with
      | false => simp [left.zero, right.zero]
      | true => simp [single n (by omega)]
  rw [← lowBits_all x]
  exact prefixes w (Nat.le_refl w)

end Linear

/-! ## Products and checks -/

theorem row_xor (f g : Nat → BitVec w) (lo len : Nat) :
    row (· ^^^ ·) 0#w (fun i => f i ^^^ g i) lo len =
      row (· ^^^ ·) 0#w f lo len ^^^ row (· ^^^ ·) 0#w g lo len := by
  unfold row
  induction List.range' lo len with
  | nil => simp
  | cons i rest ih =>
    simp only [List.map_cons, List.foldr_cons, ih]
    ac_rfl

/-- A carry-less product is linear in its first factor. -/
theorem clmul_linear (y : BitVec w) : Linear fun x => clmul x y := by
  intro x x'
  simp only [← row_eq_clmul, ← row_xor]
  congr 1
  funext i
  cases y.getLsbD i with
  | false => simp
  | true => simp [BitVec.shiftLeft_xor_distrib]

/-- A redundancy check is linear in the word. -/
theorem crc_linear (poly : BitVec w) (n : Nat) : Linear (crc poly n) := by
  induction n with
  | zero => exact Linear.id
  | succ n ih =>
    intro x y
    rw [crc, crc, crc, ← ih, BitVec.getLsbD_xor, BitVec.ushiftRight_xor_distrib]
    congr 1
    cases x.getLsbD 0 <;> cases y.getLsbD 0 <;> simp
    · ac_rfl
    · ac_rfl
    · rw [BitVec.xor_assoc, BitVec.xor_comm _ poly, ← BitVec.xor_assoc poly poly]
      simp

/-- The whole product. -/
def product (x y : BitVec w) : BitVec (w + w) := ofBits (productBit x y) (w + w)

theorem clmul_eq (x y : BitVec w) : clmul x y = (product x y).extractLsb' 0 w := by
  apply BitVec.eq_of_getLsbD_eq
  intro i inside
  have within : i < w + w := by omega
  simp [clmul, product, inside, within]

theorem clmulr_eq (x y : BitVec w) : clmulr x y = (product x y).extractLsb' (w - 1) w := by
  apply BitVec.eq_of_getLsbD_eq
  intro i inside
  have within : w - 1 + i < w + w := by omega
  simp [clmulr, product, inside, within, Nat.add_comm i]

theorem clmulh_eq (x y : BitVec w) : clmulh x y = (product x y).extractLsb' w w := by
  apply BitVec.eq_of_getLsbD_eq
  intro i inside
  simp [clmulh, product, inside, Nat.add_comm i]

end BitManip

end SnitchCluster.Theory
