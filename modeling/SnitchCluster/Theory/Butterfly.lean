/-
# Theory.Butterfly -- routing the bits of a word by counts

Packing the selected bits of a word moves each to the place that counts the selected
places below it, and depositing takes them back.  A butterfly network does either in
stages that exchange bits `n` places away (`exchange`), steered by the count in the
middle of each segment (`crosses`).

One stage takes a selected bit from its place within segments of `n` places to its place
within segments of `2 * n` (`exchange_place`), and every stage is its own inverse.  So the
stages turn the place of a selected bit into its count (`route_selected`), and a word
passed through them is extracted (`gather_eq_bext`) or deposited (`scatter_eq_bdep`).
The counts themselves come from a table that is completed place by place (`Counting`).
-/
import SnitchCluster.Theory.BitManip
import Mathlib.Algebra.Group.Nat.Defs

namespace SnitchCluster.Theory

namespace BitManip

variable {w : Nat}

/-! ## Counts below a place -/

/-- A count that grows by at most one from each place to the next. -/
structure PrefixCount where
  count : Nat → Nat
  count_zero : count 0 = 0
  grows : ∀ i, count i ≤ count (i + 1)
  slow : ∀ i, count (i + 1) ≤ count i + 1

theorem onesBelow_zero (x : BitVec w) : onesBelow x 0 = 0 := by simp [onesBelow]

theorem onesBelow_succ (x : BitVec w) (n : Nat) :
    onesBelow x (n + 1) = onesBelow x n + (x.getLsbD n).toNat := by
  unfold onesBelow
  rw [BitVec.cpopNatRec_succ, BitVec.cpopNatRec_eq]
  simp

/-- The set bits of a word are counted so. -/
def selected (mask : BitVec w) : PrefixCount where
  count := onesBelow mask
  count_zero := onesBelow_zero mask
  grows i := by simp [onesBelow_succ]
  slow i := by
    rw [onesBelow_succ]
    have bit := Bool.toNat_le (mask.getLsbD i)
    omega

@[simp] theorem selected_count (mask : BitVec w) (i : Nat) :
    (selected mask).count i = onesBelow mask i := rfl

namespace PrefixCount

variable (c : PrefixCount)

theorem count_mono {i j : Nat} (before : i ≤ j) : c.count i ≤ c.count j := by
  induction before with
  | refl => exact Nat.le_refl _
  | step _ ih => exact ih.trans (c.grows _)

theorem count_add_le (i n : Nat) : c.count (i + n) ≤ c.count i + n := by
  induction n with
  | zero => simp
  | succ n ih =>
    have next := c.slow (i + n)
    rw [Nat.add_succ]
    simp only [Nat.succ_eq_add_one]
    omega

theorem count_le (i : Nat) : c.count i ≤ i := by
  have bound := c.count_add_le 0 i
  rw [c.count_zero] at bound
  simpa using bound

end PrefixCount

/-! ## Tables of partial counts -/

/-- Place `i` of the table counts the set bits of `x` from `start i` up to itself. -/
def Counting {v : Nat} (x : BitVec w) (start : Nat → Nat) (partials : Nat → BitVec v) : Prop :=
  ∀ i < w, start i ≤ i + 1 ∧
    partials i = BitVec.ofNat v (onesBelow x (i + 1) - onesBelow x (start i))

/-- The starts after the places in `p` have added what is kept `d` places below. -/
def joined (p : Nat → Prop) [DecidablePred p] (d : Nat) (start : Nat → Nat) (i : Nat) : Nat :=
  if p i then start (i - d) else start i

/-- A place that starts where another ends takes over its start. -/
theorem Counting.add {v : Nat} {x : BitVec w} {start : Nat → Nat} {partials : Nat → BitVec v}
    {p : Nat → Prop} [DecidablePred p] {d : Nat} (counting : Counting x start partials)
    (adjacent : ∀ i < w, p i → d ≤ i ∧ start i = i - d + 1) :
    Counting x (joined p d start)
      (fun i => if p i then partials (i - d) + partials i else partials i) := by
  intro i inside
  obtain ⟨here, value⟩ := counting i inside
  by_cases added : p i
  · obtain ⟨reach, meets⟩ := adjacent i inside added
    obtain ⟨below, lower⟩ := counting (i - d) (by omega)
    have first := (selected x).count_mono below
    have second := (selected x).count_mono here
    rw [meets] at second
    rw [selected_count, selected_count] at first second
    simp only [joined, if_pos added]
    rw [lower, value, meets, ← BitVec.ofNat_add]
    exact ⟨by omega, congrArg (BitVec.ofNat v) (by omega)⟩
  · simp only [joined, if_neg added]
    exact ⟨here, value⟩

/-! ## Stages of exchanges -/

/-- The other place of a pair `n` places apart. -/
def partner (n i : Nat) : Nat := if i % (2 * n) < n then i + n else i - n

/-- The upper place of a pair. -/
def upper (n i : Nat) : Nat := if i % (2 * n) < n then i + n else i

/-- The pairs whose upper place is in `cross` are exchanged. -/
def exchange (n : Nat) (cross : Nat → Bool) (i : Nat) : Nat :=
  if cross (upper n i) then partner n i else i

section Pairs

variable {n : Nat}

/-- A place is the lower or the upper one of a pair. -/
theorem pair_cases (positive : 0 < n) (i : Nat) :
    ∃ q j, j < n ∧ (i = 2 * n * q + j ∨ i = 2 * n * q + (n + j)) := by
  have split := Nat.div_add_mod i (2 * n)
  have bound := Nat.mod_lt i (show 0 < 2 * n by omega)
  by_cases lower : i % (2 * n) < n
  · exact ⟨i / (2 * n), i % (2 * n), lower, .inl split.symm⟩
  · exact ⟨i / (2 * n), i % (2 * n) - n, by omega, .inr (by omega)⟩

variable {j : Nat} (q : Nat)

theorem lower_mod (small : j < n) : (2 * n * q + j) % (2 * n) = j := by
  rw [Nat.mul_add_mod, Nat.mod_eq_of_lt (by omega)]

theorem upper_mod (small : j < n) : (2 * n * q + (n + j)) % (2 * n) = n + j := by
  rw [Nat.mul_add_mod, Nat.mod_eq_of_lt (by omega)]

theorem exchange_lower (cross : Nat → Bool) (small : j < n) :
    exchange n cross (2 * n * q + j) =
      if cross (2 * n * q + (n + j)) then 2 * n * q + (n + j) else 2 * n * q + j := by
  have place := lower_mod q small
  have above : 2 * n * q + j + n = 2 * n * q + (n + j) := by omega
  rw [exchange, upper, partner, place, if_pos small, if_pos small, above]

theorem exchange_upper (cross : Nat → Bool) (small : j < n) :
    exchange n cross (2 * n * q + (n + j)) =
      if cross (2 * n * q + (n + j)) then 2 * n * q + j else 2 * n * q + (n + j) := by
  have place := upper_mod q small
  have below : 2 * n * q + (n + j) - n = 2 * n * q + j := by omega
  have high : ¬n + j < n := by omega
  rw [exchange, upper, partner, place, if_neg high, if_neg high, below]

/-- Exchanging twice is doing nothing. -/
theorem exchange_exchange (positive : 0 < n) (cross : Nat → Bool) (i : Nat) :
    exchange n cross (exchange n cross i) = i := by
  obtain ⟨q, j, small, rfl | rfl⟩ := pair_cases positive i
  · rw [exchange_lower q cross small]
    cases crossed : cross (2 * n * q + (n + j)) with
    | false => simp [exchange_lower q cross small, crossed]
    | true => simp [exchange_upper q cross small, crossed]
  · rw [exchange_upper q cross small]
    cases crossed : cross (2 * n * q + (n + j)) with
    | false => simp [exchange_upper q cross small, crossed]
    | true => simp [exchange_lower q cross small, crossed]

/-- The pairs of a word lie within it. -/
theorem pair_lt (whole : 2 * n ∣ w) (small : j < n) {r : Nat} (inside : 2 * n * q + r < w) : 2 * n * q + (n + j) < w ∧ 2 * n * q + j < w := by
  obtain ⟨t, rfl⟩ := whole
  have segment : q < t := by
    by_contra beyond
    have least := Nat.mul_le_mul_left (2 * n) (Nat.le_of_not_lt beyond)
    omega
  have most := Nat.mul_le_mul_left (2 * n) (Nat.succ_le_of_lt segment)
  rw [Nat.mul_succ] at most
  omega

theorem exchange_lt (positive : 0 < n) (whole : 2 * n ∣ w) (cross : Nat → Bool) {i : Nat}
    (inside : i < w) : exchange n cross i < w := by
  obtain ⟨q, j, small, rfl | rfl⟩ := pair_cases positive i
  · obtain ⟨high, low⟩ := pair_lt q whole small inside
    rw [exchange_lower q cross small]
    split <;> assumption
  · obtain ⟨high, low⟩ := pair_lt q whole small inside
    rw [exchange_upper q cross small]
    split <;> assumption

/-- A stage built from masks over the upper and the lower places of the pairs. -/
theorem masked_pairs {left right : BitVec w} {cross : Nat → Bool} (positive : 0 < n)
    (whole : 2 * n ∣ w)
    (onUpper : ∀ i < w, left.getLsbD i = (decide (n ≤ i % (2 * n)) && cross i))
    (onLower : ∀ i < w, right.getLsbD i = (decide (i % (2 * n) < n) && cross (i + n)))
    (x : BitVec w) :
    (x &&& ~~~(left ||| right)) ||| ((x &&& left) >>> n) ||| ((x &&& right) <<< n) =
      permute (exchange n cross) x := by
  apply BitVec.eq_of_getLsbD_eq
  intro i inside
  rw [getLsbD_permute _ _ inside]
  obtain ⟨q, j, small, rfl | rfl⟩ := pair_cases positive i
  · obtain ⟨high, low⟩ := pair_lt q whole small inside
    have above : n + (2 * n * q + j) = 2 * n * q + (n + j) := by omega
    have crossing : 2 * n * q + j + n = 2 * n * q + (n + j) := by omega
    -- what comes from below is the upper place of another pair
    have other : n ≤ 2 * n * q + j → right.getLsbD (2 * n * q + j - n) = false := by
      intro reach
      have earlier : q ≠ 0 := by
        rintro rfl
        omega
      obtain ⟨t, rfl⟩ := Nat.exists_eq_succ_of_ne_zero earlier
      have place : 2 * n * (t + 1) + j - n = 2 * n * t + (n + j) := by
        rw [Nat.mul_add]
        omega
      rw [Nat.succ_eq_add_one] at inside ⊢
      rw [onLower _ (by omega), place, upper_mod t small]
      simp
    rw [exchange_lower q cross small]
    simp only [BitVec.getLsbD_or, BitVec.getLsbD_and, BitVec.getLsbD_not, BitVec.getLsbD_ushiftRight,
      BitVec.getLsbD_shiftLeft, above, inside, onUpper _ inside, onUpper _ high, onLower _ inside,
      lower_mod q small, upper_mod q small, crossing]
    by_cases reach : n ≤ 2 * n * q + j
    · rw [other reach]
      cases crossed : cross (2 * n * q + (n + j)) <;> simp [small]
    · have short : 2 * n * q + j < n := by omega
      cases crossed : cross (2 * n * q + (n + j)) <;> simp [small, short]
  · obtain ⟨high, low⟩ := pair_lt q whole small inside
    have below : 2 * n * q + (n + j) - n = 2 * n * q + j := by omega
    have crossing : 2 * n * q + j + n = 2 * n * q + (n + j) := by omega
    have reach : ¬2 * n * q + (n + j) < n := by omega
    -- what comes from above is the lower place of another pair
    have other : left.getLsbD (n + (2 * n * q + (n + j))) = false := by
      by_cases within : n + (2 * n * q + (n + j)) < w
      · have place : n + (2 * n * q + (n + j)) = 2 * n * (q + 1) + j := by
          rw [Nat.mul_add]
          omega
        rw [onUpper _ within, place, lower_mod (q + 1) small]
        simp [small]
      · exact BitVec.getLsbD_of_ge _ _ (by omega)
    rw [exchange_upper q cross small]
    simp only [BitVec.getLsbD_or, BitVec.getLsbD_and, BitVec.getLsbD_not, BitVec.getLsbD_ushiftRight,
      BitVec.getLsbD_shiftLeft, below, other, inside, onUpper _ inside, onLower _ inside,
      onLower _ low, lower_mod q small, upper_mod q small, crossing, reach]
    cases crossed : cross (2 * n * q + (n + j)) <;> simp [small]

end Pairs

/-! ## Routing -/

namespace PrefixCount

variable (c : PrefixCount)

/-- A pair is exchanged unless the count in the middle of its segment, within twice the
distance, lies at most `n` places below its upper place. -/
def crosses (n i : Nat) : Bool :=
  let amount := c.count (n * (2 * (i / (2 * n)) + 1)) % (2 * n)
  !(decide (amount ≤ i % (2 * n)) && decide (i % (2 * n) < amount + n))

/-- The place of what belongs to `p`, as far as segments of `n` places tell. -/
def place (n p : Nat) : Nat := n * (p / n) + c.count p % n

variable {c} {n : Nat}

theorem crosses_upper (q : Nat) {j : Nat} (small : j < n) :
    c.crosses n (2 * n * q + (n + j)) =
      !(decide (c.count (2 * n * q + n) % (2 * n) ≤ n + j) &&
        decide (n + j < c.count (2 * n * q + n) % (2 * n) + n)) := by
  have segment : (2 * n * q + (n + j)) / (2 * n) = q := by
    rw [Nat.mul_add_div (by omega), Nat.div_eq_of_lt (by omega), Nat.add_zero]
  have middle : n * (2 * q + 1) = 2 * n * q + n := by
    rw [Nat.mul_add, Nat.mul_one, ← Nat.mul_assoc, Nat.mul_comm n 2]
  rw [crosses, segment, middle, upper_mod q small]

/-- What belongs to a selected place of the lower half crosses if it is in the upper half. -/
theorem crosses_of_lower {q r t : Nat} {j : Nat} (small : j < n) (within : r < n)
    (set : c.count (2 * n * q + r + 1) = c.count (2 * n * q + r) + 1) :
    (c.count (2 * n * q + r) = 2 * n * t + j → c.crosses n (2 * n * q + (n + j)) = false) ∧
      (c.count (2 * n * q + r) = 2 * n * t + (n + j) →
        c.crosses n (2 * n * q + (n + j)) = true) := by
  have least := c.count_mono (show 2 * n * q + r + 1 ≤ 2 * n * q + n by omega)
  have most := c.count_add_le (2 * n * q + r) (n - r)
  rw [show 2 * n * q + r + (n - r) = 2 * n * q + n by omega] at most
  rw [crosses_upper q small]
  constructor
  · intro low
    obtain ⟨d, sum⟩ : ∃ d, c.count (2 * n * q + n) = 2 * n * t + (j + d) :=
      ⟨c.count (2 * n * q + n) - c.count (2 * n * q + r), by omega⟩
    rw [sum, Nat.mul_add_mod, Nat.mod_eq_of_lt (by omega)]
    simp
    omega
  · intro high
    obtain ⟨d, sum⟩ : ∃ d, c.count (2 * n * q + n) = 2 * n * t + (n + j + d) :=
      ⟨c.count (2 * n * q + n) - c.count (2 * n * q + r), by omega⟩
    by_cases wraps : n + j + d < 2 * n
    · rw [sum, Nat.mul_add_mod, Nat.mod_eq_of_lt wraps]
      simp
      omega
    · rw [sum, show 2 * n * t + (n + j + d) = 2 * n * (t + 1) + (j + d - n) by
        rw [Nat.mul_add]; omega, Nat.mul_add_mod, Nat.mod_eq_of_lt (by omega)]
      simp
      omega

/-- What belongs to a place of the upper half crosses if it is in the lower half. -/
theorem crosses_of_upper {q r t : Nat} {j : Nat} (small : j < n) (within : r < n) :
    (c.count (2 * n * q + (n + r)) = 2 * n * t + j →
        c.crosses n (2 * n * q + (n + j)) = true) ∧
      (c.count (2 * n * q + (n + r)) = 2 * n * t + (n + j) →
        c.crosses n (2 * n * q + (n + j)) = false) := by
  have least := c.count_mono (show 2 * n * q + n ≤ 2 * n * q + (n + r) by omega)
  have most := c.count_add_le (2 * n * q + n) r
  rw [Nat.add_assoc] at most
  rw [crosses_upper q small]
  constructor
  · intro low
    by_cases wraps : c.count (2 * n * q + (n + r)) - c.count (2 * n * q + n) ≤ j
    · obtain ⟨u, sum, below⟩ : ∃ u, c.count (2 * n * q + n) = 2 * n * t + u ∧ u ≤ j :=
        ⟨c.count (2 * n * q + n) - 2 * n * t, by omega, by omega⟩
      rw [sum, Nat.mul_add_mod, Nat.mod_eq_of_lt (by omega)]
      simp
      omega
    · have earlier : t ≠ 0 := by
        rintro rfl
        omega
      obtain ⟨t, rfl⟩ := Nat.exists_eq_succ_of_ne_zero earlier
      rw [Nat.succ_eq_add_one, Nat.mul_add] at low
      obtain ⟨u, sum, above, below⟩ : ∃ u, c.count (2 * n * q + n) = 2 * n * t + u ∧
          n + j < u ∧ u < 2 * n :=
        ⟨c.count (2 * n * q + n) - 2 * n * t, by omega, by omega, by omega⟩
      rw [sum, Nat.mul_add_mod, Nat.mod_eq_of_lt below]
      simp
      omega
  · intro high
    obtain ⟨u, sum, above, below⟩ : ∃ u, c.count (2 * n * q + n) = 2 * n * t + u ∧
        u ≤ n + j ∧ j < u :=
      ⟨c.count (2 * n * q + n) - 2 * n * t, by omega, by omega, by omega⟩
    rw [sum, Nat.mul_add_mod, Nat.mod_eq_of_lt (by omega)]
    simp
    omega

/-- **A stage joins segments**: what belongs to a selected place moves from where it is
within `n` places to where it is within `2 * n`. -/
theorem exchange_place (positive : 0 < n) {p : Nat} (set : c.count (p + 1) = c.count p + 1) :
    exchange n (c.crosses n) (c.place n p) = c.place (2 * n) p := by
  obtain ⟨q, r, within, half⟩ := pair_cases positive p
  obtain ⟨t, j, small, parity⟩ := pair_cases positive (c.count p)
  have double : 2 * n = n * 2 := Nat.mul_comm 2 n
  have remainder : c.count p % n = j := by
    rcases parity with low | high
    · rw [low, double, Nat.mul_assoc, Nat.mul_add_mod, Nat.mod_eq_of_lt small]
    · rw [high, double, Nat.mul_assoc, Nat.mul_add_mod, Nat.add_mod_left, Nat.mod_eq_of_lt small]
  rcases half with rfl | rfl
  · have before : c.place n (2 * n * q + r) = 2 * n * q + j := by
      rw [place, remainder, double, Nat.mul_assoc, Nat.mul_add_div positive,
        Nat.div_eq_of_lt within, Nat.add_zero]
    have after : c.place (2 * n) (2 * n * q + r) = 2 * n * q + c.count (2 * n * q + r) % (2 * n) := by
      rw [place, Nat.mul_add_div (by omega), Nat.div_eq_of_lt (by omega), Nat.add_zero]
    obtain ⟨stays, moves⟩ := crosses_of_lower (t := t) small within set
    rw [before, after, exchange_lower q _ small]
    rcases parity with low | high
    · rw [stays low, low, lower_mod t small, if_neg Bool.false_ne_true]
    · rw [moves high, high, upper_mod t small, if_pos rfl]
  · have before : c.place n (2 * n * q + (n + r)) = 2 * n * q + (n + j) := by
      rw [place, remainder, double, Nat.mul_assoc, Nat.mul_add_div positive,
        Nat.add_div_left _ positive, Nat.div_eq_of_lt within, Nat.mul_add]
      omega
    have after : c.place (2 * n) (2 * n * q + (n + r)) =
        2 * n * q + c.count (2 * n * q + (n + r)) % (2 * n) := by
      rw [place, Nat.mul_add_div (by omega), Nat.div_eq_of_lt (by omega), Nat.add_zero]
    obtain ⟨moves, stays⟩ := crosses_of_upper (c := c) (q := q) (t := t) small within
    rw [before, after, exchange_upper q _ small]
    rcases parity with low | high
    · rw [moves low, low, lower_mod t small, if_pos rfl]
    · rw [stays high, high, upper_mod t small, if_neg Bool.false_ne_true]

variable (c) in
/-- Where `m` stages take a place, the narrowest first, ... -/
def route : Nat → Nat → Nat
  | 0, i => i
  | m + 1, i => exchange (2 ^ m) (c.crosses (2 ^ m)) (route m i)

variable (c) in
/-- ... and back, the widest first. -/
def unroute : Nat → Nat → Nat
  | 0, i => i
  | m + 1, i => unroute m (exchange (2 ^ m) (c.crosses (2 ^ m)) i)

theorem unroute_route (m i : Nat) : c.unroute m (c.route m i) = i := by
  induction m generalizing i with
  | zero => rfl
  | succ m ih => rw [unroute, route, exchange_exchange (Nat.two_pow_pos m), ih]

theorem route_unroute (m i : Nat) : c.route m (c.unroute m i) = i := by
  induction m generalizing i with
  | zero => rfl
  | succ m ih => rw [unroute, route, ih, exchange_exchange (Nat.two_pow_pos m)]

/-- The halves of a segment of the next stage. -/
theorem segment_dvd {m : Nat} (whole : 2 ^ (m + 1) ∣ w) : 2 * 2 ^ m ∣ w ∧ 2 ^ m ∣ w := by
  rw [Nat.pow_succ, Nat.mul_comm] at whole
  exact ⟨whole, (Nat.dvd_mul_left _ _).trans whole⟩

theorem route_lt {m : Nat} (whole : 2 ^ m ∣ w) {i : Nat} (inside : i < w) : c.route m i < w := by
  induction m with
  | zero => exact inside
  | succ m ih =>
    obtain ⟨double, half⟩ := segment_dvd whole
    exact exchange_lt (Nat.two_pow_pos m) double _ (ih half)

theorem unroute_lt {m : Nat} (whole : 2 ^ m ∣ w) {i : Nat} (inside : i < w) :
    c.unroute m i < w := by
  induction m generalizing i with
  | zero => exact inside
  | succ m ih =>
    obtain ⟨double, half⟩ := segment_dvd whole
    exact ih half (exchange_lt (Nat.two_pow_pos m) double _ inside)

/-- After `m` stages a selected place is right within segments of `2 ^ m`. -/
theorem route_place {p : Nat} (set : c.count (p + 1) = c.count p + 1) (m : Nat) :
    c.route m p = c.place (2 ^ m) p := by
  induction m with
  | zero => simp [route, place, Nat.mod_one]
  | succ m ih =>
    rw [route, ih, exchange_place (Nat.two_pow_pos m) set, Nat.pow_succ, Nat.mul_comm 2]

/-- **The stages take a selected place to its count.** -/
theorem route_selected {p m : Nat} (set : c.count (p + 1) = c.count p + 1) (inside : p < 2 ^ m) :
    c.route m p = c.count p := by
  have bound := c.count_le p
  rw [route_place set, place, Nat.div_eq_of_lt inside, Nat.mod_eq_of_lt (by omega)]
  simp

/-! ### Words -/

variable (c)

/-- A word passed through the stages, the widest first, ... -/
def scatter : Nat → BitVec w → BitVec w
  | 0, x => x
  | m + 1, x => scatter m (permute (exchange (2 ^ m) (c.crosses (2 ^ m))) x)

/-- ... and the narrowest first. -/
def gather : Nat → BitVec w → BitVec w
  | 0, x => x
  | m + 1, x => permute (exchange (2 ^ m) (c.crosses (2 ^ m))) (gather m x)

variable {c}

theorem scatter_eq {m : Nat} (whole : 2 ^ m ∣ w) (x : BitVec w) :
    c.scatter m x = permute (c.route m) x := by
  induction m generalizing x with
  | zero => exact (permute_id x fun _ _ => rfl).symm
  | succ m ih =>
    have half := (segment_dvd whole).2
    rw [scatter, ih half, permute_permute (ρ := c.route (m + 1)) x fun i inside =>
      ⟨route_lt half inside, rfl⟩]

theorem gather_eq {m : Nat} (whole : 2 ^ m ∣ w) (x : BitVec w) :
    c.gather m x = permute (c.unroute m) x := by
  induction m generalizing x with
  | zero => exact (permute_id x fun _ _ => rfl).symm
  | succ m ih =>
    obtain ⟨double, half⟩ := segment_dvd whole
    rw [gather, ih half, permute_permute (ρ := c.unroute (m + 1)) x fun i inside =>
      ⟨exchange_lt (Nat.two_pow_pos m) double _ inside, rfl⟩]

end PrefixCount

/-! ## Extraction and deposit -/

section Words

open PrefixCount

variable {m : Nat} (x mask : BitVec w)

theorem selected_set {mask : BitVec w} {p : Nat} (set : mask.getLsbD p = true) :
    (selected mask).count (p + 1) = (selected mask).count p + 1 := by
  simp [onesBelow_succ, set]

/-- Different selected places have different counts. -/
theorem onesBelow_inj {mask : BitVec w} {p q : Nat} (left : mask.getLsbD p = true)
    (right : mask.getLsbD q = true) (same : onesBelow mask p = onesBelow mask q) : p = q := by
  rcases Nat.lt_trichotomy p q with before | rfl | after
  · have later := (selected mask).count_mono (Nat.succ_le_of_lt before)
    rw [Nat.succ_eq_add_one, selected_set left] at later
    rw [selected_count, selected_count] at later
    omega
  · rfl
  · have later := (selected mask).count_mono (Nat.succ_le_of_lt after)
    rw [Nat.succ_eq_add_one, selected_set right] at later
    rw [selected_count, selected_count] at later
    omega

/-- **Scattering deposits**: only the selected places are kept. -/
theorem scatter_eq_bdep (width : w = 2 ^ m) :
    (selected mask).scatter m x &&& mask = bdep x mask := by
  apply BitVec.eq_of_getLsbD_eq
  intro i inside
  rw [scatter_eq (Dvd.intro 1 (by rw [width, Nat.mul_one])), BitVec.getLsbD_and,
    getLsbD_permute _ _ inside, bdep, getLsbD_ofBits, decide_eq_true inside, Bool.true_and]
  cases set : mask.getLsbD i with
  | false => simp
  | true =>
    rw [route_selected (selected_set set) (width ▸ inside), selected_count]
    simp

/-- **Gathering extracts**: the selected bits reach the places that count them. -/
theorem gather_eq_bext (width : w = 2 ^ m) :
    (selected mask).gather m (x &&& mask) = bext x mask := by
  have whole : 2 ^ m ∣ w := Dvd.intro 1 (by rw [width, Nat.mul_one])
  have reaches : ∀ p < w, mask.getLsbD p = true →
      (selected mask).route m p = onesBelow mask p := fun p inside set =>
    route_selected (selected_set set) (width ▸ inside)
  apply BitVec.eq_of_getLsbD_eq
  intro j inside
  rw [gather_eq whole, getLsbD_permute _ _ inside, bext, getLsbD_ofBits, decide_eq_true inside,
    Bool.true_and, BitVec.getLsbD_and, Bool.eq_iff_iff]
  simp only [List.any_eq_true, List.mem_range, Bool.and_eq_true, beq_iff_eq]
  constructor
  · rintro ⟨bit, set⟩
    have source := unroute_lt (c := selected mask) whole inside
    have place := reaches _ source set
    rw [route_unroute] at place
    exact ⟨_, source, ⟨set, place.symm⟩, bit⟩
  · rintro ⟨p, within, ⟨set, rfl⟩, bit⟩
    have back := unroute_route (c := selected mask) m p
    rw [reaches p within set] at back
    rw [back]
    exact ⟨bit, set⟩

/-- **A deposit puts back what was extracted.** -/
theorem bdep_bext : bdep (bext x mask) mask = x &&& mask := by
  apply BitVec.eq_of_getLsbD_eq
  intro i inside
  have bound := (selected mask).count_le i
  have below : onesBelow mask i < w := Nat.lt_of_le_of_lt bound inside
  rw [bdep, getLsbD_ofBits, decide_eq_true inside, Bool.true_and, bext, getLsbD_ofBits,
    decide_eq_true below, Bool.true_and, BitVec.getLsbD_and, Bool.and_comm, Bool.eq_iff_iff]
  simp only [List.any_eq_true, List.mem_range, Bool.and_eq_true, beq_iff_eq]
  constructor
  · rintro ⟨⟨p, within, ⟨chosen, same⟩, bit⟩, set⟩
    rw [onesBelow_inj chosen set same] at bit
    exact ⟨bit, set⟩
  · rintro ⟨bit, set⟩
    exact ⟨⟨i, inside, ⟨set, rfl⟩, bit⟩, set⟩

end Words

end BitManip

end SnitchCluster.Theory
