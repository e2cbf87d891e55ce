/-
# Theory.Packed -- entries packed in words

An array of entries of equal size that starts somewhere in a word, `per` entries to a
word.  Entry `j` is in word `wordOf j` at `slotOf j`, both counted from the word of the
first entry.

Whoever reads the array in order steps from slot to slot (`wordOf_succ`, `slotOf_succ`)
and is through with a word at its last slot or at the last entry of all (`used_succ`);
in the last word the slot alone tells whether an entry is the last (`slotOf_eq_iff`).
-/
import Mathlib.Algebra.Order.Ring.Nat

namespace SnitchCluster.Theory

/-- The entries 0 to `bound`, the first of them in slot `first`. -/
structure Packed where
  per : Nat
  first : Nat
  bound : Nat
  inside : first < per

namespace Packed

variable (A : Packed)

/-- The word of an entry. -/
def wordOf (j : Nat) : Nat := (A.first + j) / A.per

/-- The place of an entry in its word. -/
def slotOf (j : Nat) : Nat := (A.first + j) % A.per

/-- How many words the entries overlap. -/
def words : Nat := A.wordOf A.bound + 1

/-- How many words are used up by the first `c` entries. -/
def used (c : Nat) : Nat := if c ≤ A.bound then A.wordOf c else A.words

theorem per_pos : 0 < A.per := Nat.zero_lt_of_lt A.inside

theorem slotOf_lt (j : Nat) : A.slotOf j < A.per := Nat.mod_lt _ A.per_pos

theorem slot_add_word (j : Nat) : A.slotOf j + A.per * A.wordOf j = A.first + j :=
  Nat.mod_add_div _ _

/-- Word and slot are all there is to an entry. -/
theorem entry_unique {j w s : Nat} (place : s + A.per * w = A.first + j) (inside : s < A.per) :
    A.wordOf j = w ∧ A.slotOf j = s :=
  (Nat.div_mod_unique A.per_pos).mpr ⟨place, inside⟩

theorem succ (j : Nat) :
    A.wordOf (j + 1) = A.wordOf j + (decide (A.slotOf j + 1 = A.per)).toNat ∧
      A.slotOf (j + 1) = if A.slotOf j + 1 = A.per then 0 else A.slotOf j + 1 := by
  have place := A.slot_add_word j
  by_cases rolls : A.slotOf j + 1 = A.per
  · rw [if_pos rolls, decide_eq_true rolls]
    apply A.entry_unique _ A.per_pos
    rw [Bool.toNat_true, Nat.mul_succ]
    omega
  · have room := A.slotOf_lt j
    rw [if_neg rolls, decide_eq_false rolls]
    apply A.entry_unique _ (by omega)
    simp only [Bool.toNat_false, Nat.add_zero]
    omega

theorem wordOf_succ (j : Nat) :
    A.wordOf (j + 1) = A.wordOf j + (decide (A.slotOf j + 1 = A.per)).toNat := (A.succ j).1

theorem slotOf_succ (j : Nat) :
    A.slotOf (j + 1) = if A.slotOf j + 1 = A.per then 0 else A.slotOf j + 1 := (A.succ j).2

theorem wordOf_mono {j k : Nat} (upto : j ≤ k) : A.wordOf j ≤ A.wordOf k :=
  Nat.div_le_div_right (Nat.add_le_add_left upto _)

@[simp] theorem wordOf_zero : A.wordOf 0 = 0 := Nat.div_eq_of_lt A.inside

@[simp] theorem slotOf_zero : A.slotOf 0 = A.first := Nat.mod_eq_of_lt A.inside

theorem used_of_le {c : Nat} (within : c ≤ A.bound) : A.used c = A.wordOf c := if_pos within

theorem used_lt_words {c : Nat} (within : c ≤ A.bound) : A.used c < A.words := by
  rw [A.used_of_le within]
  exact Nat.lt_succ_of_le (A.wordOf_mono within)

@[simp] theorem used_zero : A.used 0 = 0 := by
  rw [A.used_of_le (Nat.zero_le _), wordOf_zero]

@[simp] theorem used_all : A.used (A.bound + 1) = A.words :=
  if_neg (Nat.not_succ_le_self _)

/-- A word is used up at its last slot, and at the last entry. -/
theorem used_succ {c : Nat} (within : c ≤ A.bound) :
    A.used (c + 1) =
      A.used c + (decide (c = A.bound) || decide (A.slotOf c + 1 = A.per)).toNat := by
  by_cases final : c = A.bound
  · rw [final, used_all, A.used_of_le (Nat.le_refl _), decide_eq_true rfl]
    rfl
  · rw [A.used_of_le within, A.used_of_le (by omega), wordOf_succ, decide_eq_false final,
      Bool.false_or]

/-- In the last word the slot tells the last entry. -/
theorem slotOf_eq_iff {c : Nat} (within : c ≤ A.bound) (lastWord : A.used c + 1 = A.words) :
    A.slotOf c = A.slotOf A.bound ↔ c = A.bound := by
  constructor
  · intro same
    have here := A.slot_add_word c
    have there := A.slot_add_word A.bound
    rw [A.used_of_le within, words] at lastWord
    rw [same, Nat.succ.inj lastWord] at here
    omega
  · intro final
    rw [final]

/-- The last word rolls over at the last entry at most. -/
theorem last_of_rolls {c : Nat} (within : c ≤ A.bound) (lastWord : A.used c + 1 = A.words)
    (rolls : A.slotOf c + 1 = A.per) : c = A.bound := by
  by_contra before
  have next := A.wordOf_succ c
  have mono := A.wordOf_mono (show c + 1 ≤ A.bound by omega)
  rw [decide_eq_true rolls, Bool.toNat_true] at next
  rw [A.used_of_le within, words] at lastWord
  omega

end Packed

end SnitchCluster.Theory
