/-
# Theory.BitManip -- operations on the bits of a word

What the bit-manipulation instructions of a RISC-V core mean, said bit by bit:
a general reverse moves bit `i` from `i xor s`, a shuffle swaps neighbouring bits of
the index, an extraction moves the `j`-th selected bit to place `j`.  Beside each
meaning stands the rule that connects it to the way such operations are built:
from stages that exchange masked bits (`masked_exchange`), from trees that combine
neighbours (`tree_eq`), or by spreading a bit upwards (`spread_iff`).
-/
import Mathlib.Data.BitVec
import Mathlib.Tactic.Ring

namespace SnitchCluster.Theory

namespace BitManip

variable {w : Nat}

/-! ## Words given bit by bit -/

/-- The word whose bit `i` is `f i`. -/
def ofBits (f : Nat → Bool) : (w : Nat) → BitVec w
  | 0 => 0#0
  | w + 1 => BitVec.cons (f w) (ofBits f w)

@[simp] theorem getLsbD_ofBits (f : Nat → Bool) (i : Nat) :
    (ofBits f w).getLsbD i = (decide (i < w) && f i) := by
  induction w with
  | zero => simp [ofBits]
  | succ w ih =>
    rw [ofBits, BitVec.getLsbD_cons, ih]
    by_cases top : i = w
    · simp [top]
    · have below : i < w + 1 ↔ i < w := by omega
      simp [top, below]

@[simp] theorem getElem_ofBits (f : Nat → Bool) {i : Nat} (inside : i < w) :
    (ofBits f w)[i] = f i := by
  rw [← BitVec.getLsbD_eq_getElem, getLsbD_ofBits, decide_eq_true inside, Bool.true_and]

/-- A word of the bits of `x`, bit `i` taken from `σ i`. -/
def permute (σ : Nat → Nat) (x : BitVec w) : BitVec w := ofBits (fun i => x.getLsbD (σ i)) w

theorem getLsbD_permute (σ : Nat → Nat) (x : BitVec w) {i : Nat} (inside : i < w) :
    (permute σ x).getLsbD i = x.getLsbD (σ i) := by
  rw [permute, getLsbD_ofBits, decide_eq_true inside, Bool.true_and]

theorem permute_permute {σ τ ρ : Nat → Nat} (x : BitVec w)
    (composed : ∀ i < w, σ i < w ∧ τ (σ i) = ρ i) :
    permute σ (permute τ x) = permute ρ x := by
  apply BitVec.eq_of_getLsbD_eq
  intro i inside
  obtain ⟨within, same⟩ := composed i inside
  rw [getLsbD_permute _ _ inside, getLsbD_permute _ _ within, getLsbD_permute _ _ inside, same]

theorem permute_id {σ : Nat → Nat} (x : BitVec w) (fixed : ∀ i < w, σ i = i) :
    permute σ x = x := by
  apply BitVec.eq_of_getLsbD_eq
  intro i inside
  rw [getLsbD_permute _ _ inside, fixed i inside]

/-! ## Shifts and single bits -/

section Shifts

variable (x : BitVec w) (n : Nat)

/-- Shift left, ones shifted in. -/
def slo : BitVec w := ~~~(~~~x <<< n)

/-- Shift right, ones shifted in. -/
def sro : BitVec w := ~~~(~~~x >>> n)

def sbset : BitVec w := x ||| 1#w <<< n

def sbclr : BitVec w := x &&& ~~~(1#w <<< n)

def sbinv : BitVec w := x ^^^ 1#w <<< n

def sbext : BitVec w := (BitVec.ofBool (x.getLsbD n)).setWidth w

/-- A left shift is a right shift of the reversed word. -/
theorem reverse_ushiftRight_reverse : (x.reverse >>> n).reverse = x <<< n := by
  apply BitVec.eq_of_getLsbD_eq
  intro i inside
  simp only [BitVec.getLsbD_reverse, BitVec.getMsbD_eq_getLsbD, BitVec.getLsbD_ushiftRight,
    BitVec.getLsbD_shiftLeft]
  by_cases shifted : i < n
  · simp [shifted, inside]; omega
  · have place : w - 1 - (n + (w - 1 - i)) = i - n := by omega
    have bound : n + (w - 1 - i) < w := by omega
    simp [shifted, inside, place, bound]

theorem reverse_not : (~~~x).reverse = ~~~x.reverse := by
  apply BitVec.eq_of_getLsbD_eq
  intro i inside
  simp only [BitVec.getLsbD_reverse, BitVec.getMsbD_eq_getLsbD, BitVec.getLsbD_not, inside,
    decide_true, Bool.true_and]
  simp [show w - 1 - i < w by omega]

theorem reverse_sro_reverse : (sro x.reverse n).reverse = slo x n := by
  rw [sro, slo, reverse_not, ← reverse_not x, reverse_ushiftRight_reverse]

end Shifts

/-! ## Reversing and or-combining -/

/-- General reverse: bit `i` comes from `i xor s`. -/
def grev (x : BitVec w) (s : Nat) : BitVec w := permute (fun i => i ^^^ s) x

/-- The bits within reach of the first `n` stages of an or-combine: bit `i` is set if
some bit `i xor t` is, for a part `t < 2 ^ n` of `s`. -/
def gorcTo (n : Nat) (x : BitVec w) (s : Nat) : BitVec w :=
  ofBits (fun i => (List.range (2 ^ n)).any fun t => t &&& s == t && x.getLsbD (i ^^^ t)) w

/-- General or-combine of a word of `2 ^ n` bits. -/
def gorc (x : BitVec w) (s : Nat) : BitVec w := gorcTo (Nat.log2 w) x s

/-- Bits shifted up under one mask and down under the other move by an index map. -/
theorem masked_exchange {up down : BitVec w} {n : Nat} {σ : Nat → Nat} (x : BitVec w)
    (fits : ∀ i < w,
      ((n ≤ i ∧ up.getLsbD (i - n) = true) ∧ down.getLsbD (i + n) = false ∧ σ i = i - n) ∨
        (¬(n ≤ i ∧ up.getLsbD (i - n) = true) ∧ down.getLsbD (i + n) = true ∧ σ i = i + n)) :
    ((x &&& up) <<< n) ||| ((x &&& down) >>> n) = permute σ x := by
  apply BitVec.eq_of_getLsbD_eq
  intro i inside
  rw [getLsbD_permute _ _ inside]
  simp only [BitVec.getLsbD_or, BitVec.getLsbD_shiftLeft, BitVec.getLsbD_ushiftRight,
    BitVec.getLsbD_and, Nat.add_comm n i]
  rcases fits i inside with ⟨⟨reach, chosen⟩, other, place⟩ | ⟨missed, chosen, place⟩
  · have above : ¬i < n := by omega
    simp [inside, above, chosen, other, place]
  · rw [place, chosen]
    by_cases above : i < n
    · simp [above]
    · have masked : up.getLsbD (i - n) = false := by
        by_contra set
        exact missed ⟨by omega, by simpa using set⟩
      simp [masked]

/-- The same with a third mask for the bits that stay, the masks applied last. -/
theorem masked_swap {keep up down : BitVec w} {n : Nat} {σ : Nat → Nat} (x : BitVec w)
    (fits : ∀ i < w,
      (keep.getLsbD i = true ∧ up.getLsbD i = false ∧ down.getLsbD i = false ∧ σ i = i) ∨
      (keep.getLsbD i = false ∧ up.getLsbD i = true ∧ down.getLsbD i = false ∧ n ≤ i ∧
        σ i = i - n) ∨
      (keep.getLsbD i = false ∧ up.getLsbD i = false ∧ down.getLsbD i = true ∧ σ i = i + n)) :
    (x &&& keep) ||| ((x <<< n &&& up) ||| (x >>> n &&& down)) = permute σ x := by
  apply BitVec.eq_of_getLsbD_eq
  intro i inside
  rw [getLsbD_permute _ _ inside]
  simp only [BitVec.getLsbD_or, BitVec.getLsbD_shiftLeft, BitVec.getLsbD_ushiftRight,
    BitVec.getLsbD_and, Nat.add_comm n i]
  rcases fits i inside with ⟨stays, rises, falls, place⟩ | ⟨stays, rises, falls, reach, place⟩ |
    ⟨stays, rises, falls, place⟩
  · rw [stays, rises, falls, place]
    simp
  · have above : ¬i < n := by omega
    rw [stays, rises, falls, place]
    simp [inside, above]
  · rw [stays, rises, falls, place]
    simp

section Stages

variable {m : Nat}

theorem xor_lt (width : w = 2 ^ m) {i s : Nat} (left : i < w) (right : s < w) :
    i ^^^ s < w := by
  subst width
  exact Nat.xor_lt_two_pow left right

/-- Reversing by parts is reversing by their sum. -/
theorem grev_grev (width : w = 2 ^ m) (x : BitVec w) {s t : Nat} (small : s < w) :
    grev (grev x t) s = grev x (s ^^^ t) := by
  refine permute_permute x fun i inside => ⟨xor_lt width inside small, ?_⟩
  exact Nat.xor_assoc i s t

theorem grev_zero (x : BitVec w) : grev x 0 = x := permute_id x fun i _ => Nat.xor_zero i

/-- Reversing twice by the same parts is doing nothing. -/
theorem grev_self (width : w = 2 ^ m) (x : BitVec w) {s : Nat} (small : s < w) :
    grev (grev x s) s = x := by
  rw [grev_grev width x small, Nat.xor_self, grev_zero]

theorem gorcTo_zero (x : BitVec w) (s : Nat) : gorcTo 0 x s = x := by
  apply BitVec.eq_of_getLsbD_eq
  intro i inside
  simp [gorcTo, inside]

theorem two_pow_add {k t : Nat} (small : t < 2 ^ k) : 2 ^ k + t = 2 ^ k ^^^ t := by
  have sum := Nat.two_pow_add_eq_or_of_lt small 1
  rw [Nat.mul_one] at sum
  rw [sum]
  apply Nat.eq_of_testBit_eq
  intro j
  by_cases place : j = k
  · simp [place, Nat.testBit_lt_two_pow small]
  · simp [Nat.testBit_two_pow_of_ne (Ne.symm place)]

/-- The parts of `s` with bit `k`: those without it, and `s` has bit `k`. -/
theorem part_iff {k t s : Nat} (small : t < 2 ^ k) :
    ((2 ^ k + t) &&& s == 2 ^ k + t) = (s.testBit k && (t &&& s == t)) := by
  have sum := two_pow_add small
  have apart : t.testBit k = false := Nat.testBit_lt_two_pow small
  rw [Bool.eq_iff_iff]
  simp only [beq_iff_eq, Bool.and_eq_true]
  constructor
  · intro part
    have bits : ∀ j, ((2 ^ k + t) &&& s).testBit j = (2 ^ k + t).testBit j := by
      intro j; rw [part]
    constructor
    · have here := bits k
      simpa [sum, apart] using here
    · apply Nat.eq_of_testBit_eq
      intro j
      have there := bits j
      by_cases place : j = k
      · simp [place, apart]
      · have other : (2 ^ k).testBit j = false := Nat.testBit_two_pow_of_ne (Ne.symm place)
        simpa [sum, other] using there
  · rintro ⟨set, part⟩
    apply Nat.eq_of_testBit_eq
    intro j
    by_cases place : j = k
    · simp [sum, place, set]
    · have other : (2 ^ k).testBit j = false := Nat.testBit_two_pow_of_ne (Ne.symm place)
      have there := congrArg (fun n => n.testBit j) part
      simpa [sum, other] using there

/-- One stage of an or-combine: every bit and the one `2 ^ k` away. -/
theorem gorcTo_succ (width : w = 2 ^ m) (x : BitVec w) (s : Nat) {k : Nat} (small : k < m) :
    gorcTo (k + 1) x s =
      if s.testBit k then gorcTo k x s ||| grev (gorcTo k x s) (2 ^ k) else gorcTo k x s := by
  have step : 2 ^ k < w := by
    rw [width]
    exact Nat.pow_lt_pow_right (by omega) small
  apply BitVec.eq_of_getLsbD_eq
  intro i inside
  have near := xor_lt width inside step
  have halves : List.range (2 ^ (k + 1)) =
      List.range (2 ^ k) ++ (List.range (2 ^ k)).map (2 ^ k + ·) := by
    rw [← List.range_add, Nat.pow_succ, Nat.mul_two]
  have upper : ((List.range (2 ^ k)).map (2 ^ k + ·)).any
        (fun t => t &&& s == t && x.getLsbD (i ^^^ t)) =
      (s.testBit k && (List.range (2 ^ k)).any fun t =>
        t &&& s == t && x.getLsbD ((i ^^^ 2 ^ k) ^^^ t)) := by
    rw [List.any_map, Bool.eq_iff_iff]
    simp only [List.any_eq_true, List.mem_range, Function.comp_apply, Bool.and_eq_true]
    have moved : ∀ t < 2 ^ k, i ^^^ (2 ^ k + t) = (i ^^^ 2 ^ k) ^^^ t := by
      intro t below
      rw [two_pow_add below, Nat.xor_assoc]
    constructor
    · rintro ⟨t, below, part, bit⟩
      rw [part_iff below, Bool.and_eq_true] at part
      exact ⟨part.1, t, below, part.2, moved t below ▸ bit⟩
    · rintro ⟨set, t, below, part, bit⟩
      refine ⟨t, below, ?_, (moved t below).symm ▸ bit⟩
      rw [part_iff below, set, part]
      rfl
  rw [gorcTo, getLsbD_ofBits, halves, List.any_append, upper]
  cases set : s.testBit k with
  | false => simp [gorcTo, inside]
  | true => simp [gorcTo, grev, permute, inside, near]

end Stages

/-! ## Rotation -/

theorem rotateLeft_eq (x : BitVec w) {n : Nat} (small : n < w) :
    x.rotateLeft n = permute (fun i => (i + (w - n)) % w) x := by
  apply BitVec.eq_of_getLsbD_eq
  intro i inside
  rw [getLsbD_permute _ _ inside, BitVec.getLsbD_rotateLeft, Nat.mod_eq_of_lt small]
  by_cases wraps : i < n
  · have place : (i + (w - n)) % w = w - n + i := by
      rw [Nat.mod_eq_of_lt (by omega), Nat.add_comm]
    simp [wraps, place]
  · have place : (i + (w - n)) % w = i - n := by
      rw [show i + (w - n) = i - n + w by omega, Nat.add_mod_right, Nat.mod_eq_of_lt (by omega)]
    simp [wraps, place, inside]

theorem rotateRight_eq (x : BitVec w) {n : Nat} (small : n < w) :
    x.rotateRight n = permute (fun i => (i + n) % w) x := by
  apply BitVec.eq_of_getLsbD_eq
  intro i inside
  rw [getLsbD_permute _ _ inside, BitVec.getLsbD_rotateRight, Nat.mod_eq_of_lt small]
  by_cases below : i < w - n
  · have place : (i + n) % w = n + i := by rw [Nat.mod_eq_of_lt (by omega), Nat.add_comm]
    simp [below, place]
  · have place : (i + n) % w = i - (w - n) := by
      rw [show i + n = i - (w - n) + w by omega, Nat.add_mod_right, Nat.mod_eq_of_lt (by omega)]
    simp [below, place, inside]

/-- A word moved about is empty only if it was. -/
theorem permute_eq_zero {σ : Nat → Nat} {x : BitVec w} (onto : ∀ j < w, ∃ i < w, σ i = j) :
    permute σ x = 0#w ↔ x = 0#w := by
  constructor
  · intro clear
    apply BitVec.eq_of_getLsbD_eq
    intro j inside
    obtain ⟨i, within, rfl⟩ := onto j inside
    rw [← getLsbD_permute σ x within, clear]
    simp
  · rintro rfl
    apply BitVec.eq_of_getLsbD_eq
    intro i inside
    simp [permute]

theorem rotateLeft_eq_zero {x : BitVec w} {n : Nat} (small : n < w) :
    x.rotateLeft n = 0#w ↔ x = 0#w := by
  rw [rotateLeft_eq x small]
  apply permute_eq_zero
  intro j inside
  refine ⟨(j + n) % w, Nat.mod_lt _ (by omega), ?_⟩
  rw [Nat.mod_add_mod, show j + n + (w - n) = j + w by omega, Nat.add_mod_right,
    Nat.mod_eq_of_lt inside]

theorem rotateRight_eq_zero {x : BitVec w} {n : Nat} (small : n < w) :
    x.rotateRight n = 0#w ↔ x = 0#w := by
  rw [rotateRight_eq x small]
  apply permute_eq_zero
  intro j inside
  refine ⟨(j + (w - n)) % w, Nat.mod_lt _ (by omega), ?_⟩
  rw [Nat.mod_add_mod, show j + (w - n) + n = j + w by omega, Nat.add_mod_right,
    Nat.mod_eq_of_lt inside]

/-! ## Shuffling -/

/-- The index with its bits `k` and `k + 1` swapped. -/
def swapBits (k i : Nat) : Nat :=
  if i.testBit k = i.testBit (k + 1) then i else i ^^^ 2 ^ k ^^^ 2 ^ (k + 1)

/-- One stage of a shuffle. -/
def zip (k : Nat) (on : Bool) (x : BitVec w) : BitVec w :=
  if on then permute (swapBits k) x else x

/-- The stages a control word selects, the widest first. -/
def shfl (x : BitVec w) (s : Nat) : BitVec w :=
  (List.range (Nat.log2 w - 1)).foldr (fun k y => zip k (s.testBit k) y) x

/-- The inverse: the narrowest stage first. -/
def unshfl (x : BitVec w) (s : Nat) : BitVec w :=
  (List.range (Nat.log2 w - 1)).foldl (fun y k => zip k (s.testBit k) y) x

section Undoing

variable {m : Nat}

theorem swapBits_lt (width : w = 2 ^ m) {k i : Nat} (small : k + 1 < m) (inside : i < w) :
    swapBits k i < w := by
  subst width
  unfold swapBits
  split
  · exact inside
  · apply Nat.xor_lt_two_pow
    · exact Nat.xor_lt_two_pow inside (Nat.pow_lt_pow_right (by omega) (by omega))
    · exact Nat.pow_lt_pow_right (by omega) small

theorem swapBits_swapBits (k i : Nat) : swapBits k (swapBits k i) = i := by
  by_cases same : i.testBit k = i.testBit (k + 1)
  · have fixed : swapBits k i = i := if_pos same
    rw [fixed, fixed]
  · have moved : swapBits k i = i ^^^ 2 ^ k ^^^ 2 ^ (k + 1) := if_neg same
    have back : ¬(swapBits k i).testBit k = (swapBits k i).testBit (k + 1) := by
      rw [moved]
      simpa [Nat.testBit_xor, Nat.testBit_two_pow] using same
    rw [swapBits, if_neg back, moved]
    have undone : i ^^^ 2 ^ k ^^^ 2 ^ (k + 1) ^^^ 2 ^ k ^^^ 2 ^ (k + 1) =
        i ^^^ (2 ^ k ^^^ 2 ^ k) ^^^ (2 ^ (k + 1) ^^^ 2 ^ (k + 1)) := by ac_rfl
    rw [undone, Nat.xor_self, Nat.xor_self, Nat.xor_zero, Nat.xor_zero]

/-- A stage undoes itself. -/
theorem zip_zip (width : w = 2 ^ m) {k : Nat} (small : k + 1 < m) (on : Bool) (x : BitVec w) :
    zip k on (zip k on x) = x := by
  cases on with
  | false => rfl
  | true =>
    simp only [zip, if_true]
    rw [permute_permute (ρ := id) x fun i inside =>
      ⟨swapBits_lt width small inside, swapBits_swapBits k i⟩]
    exact permute_id x fun i _ => rfl

/-- Stages undone in the opposite order. -/
theorem stages_undo {f : Nat → BitVec w → BitVec w} {ks : List Nat}
    (undone : ∀ k ∈ ks, ∀ x, f k (f k x) = x) (x : BitVec w) :
    ks.foldl (fun y k => f k y) (ks.foldr f x) = x := by
  induction ks with
  | nil => rfl
  | cons k ks ih =>
    rw [List.foldl_cons, List.foldr_cons, undone k List.mem_cons_self]
    exact ih fun j member => undone j (List.mem_cons_of_mem k member)

/-- **A shuffle is undone by its inverse.** -/
theorem unshfl_shfl (width : w = 2 ^ m) (x : BitVec w) (s : Nat) : unshfl (shfl x s) s = x := by
  apply stages_undo
  intro k member y
  have small : k < Nat.log2 w - 1 := List.mem_range.mp member
  rw [width, Nat.log2_two_pow] at small
  exact zip_zip width (by omega) _ y

end Undoing

/-! ## Combining in a tree -/

section Trees

variable {α : Type} (op : α → α → α) (unit : α)

/-- `leaf lo`, ..., `leaf (lo + len - 1)` combined in a row. -/
def row (leaf : Nat → α) (lo len : Nat) : α := ((List.range' lo len).map leaf).foldr op unit

/-- The same in a tree: level `n` combines neighbours of level `n - 1`. -/
def tree (leaf : Nat → α) : Nat → Nat → α
  | 0, i => leaf i
  | n + 1, i => op (tree leaf n (2 * i)) (tree leaf n (2 * i + 1))

variable {op unit}

theorem row_add (assoc : ∀ a b c, op (op a b) c = op a (op b c)) (left : ∀ a, op unit a = a)
    (leaf : Nat → α) (lo m n : Nat) :
    row op unit leaf lo (m + n) = op (row op unit leaf lo m) (row op unit leaf (lo + m) n) := by
  induction m generalizing lo with
  | zero => simp [row, left]
  | succ m ih =>
    have rest := ih (lo + 1)
    simp only [row] at rest ⊢
    rw [show m + 1 + n = m + n + 1 by omega, List.range'_succ, List.range'_succ,
      List.map_cons, List.map_cons, List.foldr_cons, List.foldr_cons, rest, assoc,
      show lo + 1 + m = lo + (m + 1) by omega]

/-- A tree of depth `n` combines `2 ^ n` leaves. -/
theorem tree_eq (assoc : ∀ a b c, op (op a b) c = op a (op b c)) (left : ∀ a, op unit a = a)
    (right : ∀ a, op a unit = a) (leaf : Nat → α) (n i : Nat) :
    tree op leaf n i = row op unit leaf (i * 2 ^ n) (2 ^ n) := by
  induction n generalizing i with
  | zero => simp [tree, row, right]
  | succ n ih =>
    have first : 2 * i * 2 ^ n = i * (2 ^ n + 2 ^ n) := by ring
    have second : (2 * i + 1) * 2 ^ n = i * (2 ^ n + 2 ^ n) + 2 ^ n := by ring
    rw [tree, ih, ih, Nat.pow_succ, Nat.mul_two, row_add assoc left, first, second]

end Trees

/-! ## Counting bits -/

/-- The set bits of `x` below bit `n`. -/
def onesBelow (x : BitVec w) (n : Nat) : Nat := x.cpopNatRec n 0

/-- Extraction: the bits selected by `mask`, packed at the lower end. -/
def bext (x mask : BitVec w) : BitVec w :=
  ofBits (fun j => (List.range w).any fun i =>
    mask.getLsbD i && onesBelow mask i == j && x.getLsbD i) w

/-- Deposit: the lower bits, spread over the places `mask` selects. -/
def bdep (x mask : BitVec w) : BitVec w :=
  ofBits (fun i => mask.getLsbD i && x.getLsbD (onesBelow mask i)) w

/-- Adding up the bits of a word counts them. -/
theorem row_bits {v : Nat} (x : BitVec w) (n : Nat) :
    row (· + ·) 0#v (fun i => BitVec.ofNat v (x.getLsbD i).toNat) 0 n =
      BitVec.ofNat v (onesBelow x n) := by
  induction n with
  | zero => simp [row, onesBelow]
  | succ n ih =>
    rw [row_add BitVec.add_assoc BitVec.zero_add, ih]
    simp only [row, onesBelow, Nat.zero_add, List.range'_one, List.map_cons, List.map_nil,
      List.foldr_cons, List.foldr_nil, BitVec.cpopNatRec_succ]
    rw [BitVec.cpopNatRec_eq (x.getLsbD n).toNat, BitVec.ofNat_add]
    simp

/-- A word whose set bits are the lowest `c` has `c` of them. -/
theorem onesBelow_of_lowest {x : BitVec w} {c : Nat}
    (lowest : ∀ i < w, x.getLsbD i = decide (i < c)) {n : Nat} (short : n ≤ w) :
    onesBelow x n = min n c := by
  unfold onesBelow
  induction n with
  | zero => simp
  | succ n ih =>
    rw [BitVec.cpopNatRec_succ, BitVec.cpopNatRec_eq, ih (by omega), lowest n (by omega)]
    by_cases below : n < c <;> simp [below] <;> omega

theorem toNat_ctz_le (x : BitVec w) : x.ctz.toNat ≤ w := by
  have limit := BitVec.clz_le (x := x.reverse)
  rw [BitVec.le_def, BitVec.natCast_eq_ofNat, BitVec.toNat_ofNat,
    Nat.mod_eq_of_lt Nat.lt_two_pow_self] at limit
  exact limit

theorem ctz_zero : (0#w).ctz = BitVec.ofNat w w := by
  rw [BitVec.ctz_eq_reverse_clz, show (0#w).reverse = 0#w by simp]
  exact BitVec.clz_eq_iff_eq_zero.mpr rfl

/-- The trailing zeros end below the lowest set bit. -/
theorem lt_ctz_iff {x : BitVec w} {i : Nat} (inside : i < w) :
    i < x.ctz.toNat ↔ ∀ j ≤ i, x.getLsbD j = false := by
  constructor
  · intro trailing j before
    exact BitVec.getLsbD_false_of_lt_ctz (by omega)
  · intro clear
    by_contra reached
    by_cases zero : x = 0#w
    · subst zero
      rw [ctz_zero, BitVec.toNat_ofNat, Nat.mod_eq_of_lt Nat.lt_two_pow_self] at reached
      exact reached inside
    · have set := BitVec.getLsbD_true_ctz_of_ne_zero zero
      rw [clear _ (by omega)] at set
      contradiction

/-- Bit `i` of `y` is set if one of the `m` bits of `x` from `i` downwards is. -/
def Spreads (m : Nat) (x y : BitVec w) : Prop :=
  ∀ i < w, y.getLsbD i = true ↔ ∃ d < m, d ≤ i ∧ x.getLsbD (i - d) = true

theorem spreads_self (x : BitVec w) : Spreads 1 x x := by
  intro i inside
  constructor
  · intro set
    exact ⟨0, by omega, by omega, set⟩
  · rintro ⟨d, none, -, set⟩
    obtain rfl : d = 0 := by omega
    exact set

/-- Spreading once more by at most as far as before. -/
theorem Spreads.shift {m n : Nat} {x y : BitVec w} (before : Spreads m x y) (short : n ≤ m) :
    Spreads (m + n) x (y ||| y <<< n) := by
  intro i inside
  simp only [BitVec.getLsbD_or, BitVec.getLsbD_shiftLeft, inside, decide_true, Bool.true_and,
    Bool.or_eq_true, Bool.and_eq_true, Bool.not_eq_true', decide_eq_false_iff_not]
  rw [before i inside]
  constructor
  · rintro (⟨d, near, reach, set⟩ | ⟨above, set⟩)
    · exact ⟨d, by omega, reach, set⟩
    · obtain ⟨d, near, reach, set⟩ := (before (i - n) (by omega)).mp set
      exact ⟨d + n, by omega, by omega, by rwa [show i - (d + n) = i - n - d by omega]⟩
  · rintro ⟨d, near, reach, set⟩
    by_cases close : d < m
    · exact .inl ⟨d, close, reach, set⟩
    · refine .inr ⟨by omega, (before (i - n) (by omega)).mpr ⟨d - n, by omega, by omega, ?_⟩⟩
      rwa [show i - n - (d - n) = i - d by omega]

/-! ## Carry-less products -/

/-- Bit `k` of the carry-less product: the bits of `x` and `y` whose places add up to
`k`, added without a carry. -/
def productBit (x y : BitVec w) (k : Nat) : Bool :=
  row xor false (fun i => y.getLsbD i && (decide (i ≤ k) && x.getLsbD (k - i))) 0 w

/-- The lower half of the product. -/
def clmul (x y : BitVec w) : BitVec w := ofBits (productBit x y) w

/-- The product in reversed bit order. -/
def clmulr (x y : BitVec w) : BitVec w := ofBits (fun k => productBit x y (k + (w - 1))) w

/-- The upper half of the product. -/
def clmulh (x y : BitVec w) : BitVec w := ofBits (fun k => productBit x y (k + w)) w

theorem getLsbD_row_xor (f : Nat → BitVec w) (lo len k : Nat) :
    (row (· ^^^ ·) 0#w f lo len).getLsbD k =
      row xor false (fun i => (f i).getLsbD k) lo len := by
  unfold row
  induction List.range' lo len with
  | nil => simp
  | cons i rest ih => simp [ih]

/-- The shifted copies of `x` that `y` selects add up to the product. -/
theorem row_eq_clmul (x y : BitVec w) :
    row (· ^^^ ·) 0#w (fun i => if y.getLsbD i then x <<< i else 0) 0 w = clmul x y := by
  apply BitVec.eq_of_getLsbD_eq
  intro k inside
  rw [getLsbD_row_xor, clmul, getLsbD_ofBits, decide_eq_true inside, Bool.true_and, productBit]
  congr 1
  funext i
  cases selected : y.getLsbD i with
  | false => simp
  | true =>
    rw [if_pos rfl, BitVec.getLsbD_shiftLeft, decide_eq_true inside]
    by_cases below : i ≤ k
    · simp [below]
    · have short : k < i := by omega
      simp [below, short]

/-- The product of the reversed words, reversed. -/
theorem reverse_clmul_reverse (x y : BitVec w) :
    (clmul x.reverse y.reverse).reverse = clmulr x y := by
  apply BitVec.eq_of_getLsbD_eq
  intro k inside
  rw [BitVec.getLsbD_reverse, BitVec.getMsbD_eq_getLsbD, decide_eq_true inside, Bool.true_and,
    clmul, clmulr, getLsbD_ofBits, getLsbD_ofBits, decide_eq_true inside,
    decide_eq_true (show w - 1 - k < w by omega), Bool.true_and, Bool.true_and]
  have turned : (List.range' 0 w).reverse = (List.range' 0 w).map (w - 1 - ·) := by
    rw [List.reverse_range', ← List.range_eq_range']
    simp
  have swapped := (List.reverse_perm ((List.range' 0 w).map fun i => y.getLsbD i &&
    (decide (i ≤ k + (w - 1)) && x.getLsbD (k + (w - 1) - i)))).foldr_eq' (f := xor)
    (fun a _ b _ c => by cases a <;> cases b <;> cases c <;> rfl) false
  rw [productBit, productBit, row, row, ← swapped, ← List.map_reverse, turned, List.map_map]
  congr 1
  apply List.map_congr_left
  intro i member
  have small : i < w := by simpa using member
  simp only [Function.comp_apply, BitVec.getLsbD_reverse, BitVec.getMsbD_eq_getLsbD]
  by_cases within : i ≤ w - 1 - k
  · have there : w - 1 - (w - 1 - k - i) = k + (w - 1) - (w - 1 - i) := by omega
    have reach : w - 1 - i ≤ k + (w - 1) := by omega
    have bound : w - 1 - k - i < w := by omega
    rw [there]
    simp [small, within, reach, bound]
  · have beyond : w ≤ k + (w - 1) - (w - 1 - i) := by omega
    simp [within, BitVec.getLsbD_of_ge x _ beyond]

theorem ushiftRight_clmulr (x y : BitVec w) : clmulr x y >>> 1 = clmulh x y := by
  apply BitVec.eq_of_getLsbD_eq
  intro k inside
  rw [BitVec.getLsbD_ushiftRight, clmulr, clmulh, getLsbD_ofBits, getLsbD_ofBits,
    decide_eq_true inside, Bool.true_and]
  by_cases last : 1 + k < w
  · rw [decide_eq_true last, Bool.true_and, show 1 + k + (w - 1) = k + w by omega]
  · -- the highest place of the upper half is empty
    rw [decide_eq_false last, Bool.false_and, eq_comm, productBit, row]
    have empty : ∀ i ∈ List.range' 0 w,
        (y.getLsbD i && (decide (i ≤ k + w) && x.getLsbD (k + w - i))) = false := by
      intro i member
      have small : i < w := by simpa using member
      simp [BitVec.getLsbD_of_ge x (k + w - i) (by omega)]
    rw [List.map_congr_left empty]
    induction List.range' 0 w with
    | nil => rfl
    | cons i rest ih => simpa using ih

/-! ## Cyclic redundancy checks -/

/-- `n` bits of a word divided out, the lowest first, by a reflected polynomial. -/
def crc (poly : BitVec w) : Nat → BitVec w → BitVec w
  | 0, x => x
  | n + 1, x => crc poly n (x >>> 1 ^^^ if x.getLsbD 0 then poly else 0)

end BitManip

end SnitchCluster.Theory
