/-
# Theory.Ring -- the queue in a ring of cells

Items are numbered as they come in, and item `k` goes into cell `k` modulo the number of
cells.  `Holds cells taken items` says that the items after the first `taken` are where
they belong.  Writing the cell behind the last of them disturbs none, as long as one cell
is free (`Holds.write`); what is there then may be counted in (`Holds.append`), and the
first may be taken out (`Holds.head`, `Holds.tail`).
-/
import Mathlib.Algebra.GroupWithZero.Nat
import Mathlib.Data.Fin.Basic

namespace SnitchCluster.Theory.Ring

universe u

variable {α : Type u} {size : Nat} [NeZero size]

/-- The cell of item `k`. -/
def cell (size : Nat) [NeZero size] (k : Nat) : Fin size := Fin.ofNat size k

theorem cell_succ (k : Nat) : cell size (k + 1) = cell size k + 1 := by
  apply Fin.ext
  simp [cell, Fin.val_add, Nat.add_mod]

/-- Items that are less than a turn apart lie in different cells. -/
theorem cell_ne {j k : Nat} (before : j < k) (near : k < j + size) : cell size j ≠ cell size k := by
  intro same
  have same : j % size = k % size := congrArg Fin.val same
  have divides : size ∣ k - j := Nat.dvd_of_mod_eq_zero (Nat.sub_mod_eq_zero_of_mod_eq same.symm)
  have le := Nat.le_of_dvd (by omega) divides
  omega

/-- The items after the first `taken` are in their cells. -/
def Holds (cells : Fin size → α) (taken : Nat) (items : List α) : Prop :=
  ∀ k (h : k < items.length), cells (cell size (taken + k)) = items[k]

variable {cells cells' : Fin size → α} {taken : Nat} {items : List α} {x : α}

theorem holds_nil : Holds cells taken [] := fun _ h => absurd h (Nat.not_lt_zero _)

theorem Holds.head (holds : Holds cells taken (x :: items)) : cells (cell size taken) = x :=
  holds 0 (Nat.zero_lt_succ _)

theorem Holds.tail (holds : Holds cells taken (x :: items)) : Holds cells (taken + 1) items := by
  intro k h
  have next := holds (k + 1) (Nat.succ_lt_succ h)
  rw [Nat.add_right_comm, Nat.add_assoc]
  exact next

/-- **A free cell may be written.** -/
theorem Holds.write (holds : Holds cells taken items) (room : items.length < size)
    (others : ∀ c, c ≠ cell size (taken + items.length) → cells' c = cells c) :
    Holds cells' taken items := by
  intro k h
  rw [others _ (cell_ne (by omega) (by omega))]
  exact holds k h

theorem Holds.append (holds : Holds cells taken items)
    (last : cells (cell size (taken + items.length)) = x) : Holds cells taken (items ++ [x]) := by
  intro k h
  rw [List.length_append, List.length_singleton] at h
  by_cases old : k < items.length
  · rw [List.getElem_append_left old]
    exact holds k old
  · have new : k = items.length := by omega
    subst new
    simpa using last

end SnitchCluster.Theory.Ring
