/-
# Theory.Ledger -- what is open between those who ask and those who answer

Parties ask for things and get them later, one at a time and in any order.  A
ledger records per cycle what is opened and what is closed.  Whatever is closed in
a cycle must be open by then, if only since the same cycle (`Covered`); then
nothing is ever closed that was not opened (`Balanced`), and a cycle adds to what is
pending what it opens and takes away what it closes (`Balanced.pending_concat`).

Entries may repeat, so what is pending is a multiset.
-/
import Mathlib.Algebra.Order.Group.Multiset
import SnitchCluster.Theory.Clocked

namespace SnitchCluster.Theory

/-- What a cycle opens and what it closes. -/
structure Entry (α : Type) where
  opens : Option α
  closes : Option α
  deriving DecidableEq, Repr

namespace Ledger

variable {α : Type}

def opened (past : List (Entry α)) : Multiset α := past.filterMap Entry.opens

def closed (past : List (Entry α)) : Multiset α := past.filterMap Entry.closes

/-- At most one element. -/
def single (a : Option α) : Multiset α := a.toList

@[simp] theorem single_none : single (none : Option α) = 0 := rfl

@[simp] theorem single_some (a : α) : single (some a) = {a} := rfl

theorem opened_concat (past : List (Entry α)) (e : Entry α) :
    opened (past ++ [e]) = opened past + single e.opens := by
  rw [opened, filterMap_concat, ← Multiset.coe_add]
  rfl

theorem closed_concat (past : List (Entry α)) (e : Entry α) :
    closed (past ++ [e]) = closed past + single e.closes := by
  rw [closed, filterMap_concat, ← Multiset.coe_add]
  rfl

section Pending

variable [DecidableEq α]

/-- What was opened and has not been closed. -/
def pending (past : List (Entry α)) : Multiset α := opened past - closed past

/-- What the cycle closes is open. -/
def Covered (past : List (Entry α)) (e : Entry α) : Prop :=
  ∀ a, e.closes = some a → a ∈ pending past + single e.opens

/-- Nothing was closed that had not been opened. -/
def Balanced (past : List (Entry α)) : Prop := closed past ≤ opened past

omit [DecidableEq α] in
theorem balanced_nil : Balanced ([] : List (Entry α)) := Multiset.zero_le _

variable {past : List (Entry α)} {e : Entry α}

theorem Covered.single_le (covered : Covered past e) :
    single e.closes ≤ pending past + single e.opens := by
  cases shut : e.closes with
  | none => exact Multiset.zero_le _
  | some a => exact Multiset.singleton_le.mpr (covered a shut)

theorem Balanced.closed_add_pending (balanced : Balanced past) :
    closed past + pending past = opened past := by
  rw [add_comm]
  exact Multiset.add_sub_cancel balanced

theorem Balanced.concat (balanced : Balanced past) (covered : Covered past e) :
    Balanced (past ++ [e]) := by
  rw [Balanced, opened_concat, closed_concat, ← balanced.closed_add_pending, add_assoc]
  exact Multiset.add_le_add_left covered.single_le

/-- **A cycle adds what it opens and takes what it closes.** -/
theorem Balanced.pending_concat (balanced : Balanced past) (covered : Covered past e) :
    pending (past ++ [e]) + single e.closes = pending past + single e.opens := by
  have after := (balanced.concat covered).closed_add_pending
  rw [opened_concat, closed_concat, ← balanced.closed_add_pending, add_assoc, add_assoc] at after
  have left := Multiset.add_right_inj.mp after
  rw [add_comm, left]

end Pending

/-! ## Counting -/

section Count

variable (p : α → Prop) [DecidablePred p]

theorem countP_single (a : Option α) :
    (single a).countP p = (a.any fun a => decide (p a)).toNat := by
  cases a with
  | none => rfl
  | some a =>
    rw [single_some, ← Multiset.cons_zero, Multiset.countP_cons, Multiset.countP_zero]
    by_cases holds : p a <;> simp [holds]

/-- How a cycle changes the number of pending elements of a kind. -/
theorem Balanced.countP_concat [DecidableEq α] {past : List (Entry α)} {e : Entry α} (balanced : Balanced past)
    (covered : Covered past e) :
    (pending (past ++ [e])).countP p + (e.closes.any fun a => decide (p a)).toNat =
      (pending past).countP p + (e.opens.any fun a => decide (p a)).toNat := by
  have sides := congrArg (Multiset.countP p) (balanced.pending_concat covered)
  rw [Multiset.countP_add, Multiset.countP_add, countP_single, countP_single] at sides
  exact sides

end Count

end Ledger

end SnitchCluster.Theory
