/-
# Theory.Merge -- merging and intersecting increasing lists element by element

Two strictly increasing lists are combined by looking at their heads only.  A merge
deals with the least element `x` at hand, and each list moves past it (`advance`);
`merged_step` is its one step, and what it works through is the sorted union, each
element with what either list lacks.

An intersection passes equal heads together and otherwise the lesser one alone.  What
has been passed of either list then stays below what is left of the other (`Passed`),
so a head that is passed alone is missing there, and once a list is used up all that
the two share has been passed (`Passed.shared_all`).
-/
import Mathlib.Data.Finset.Sort

namespace SnitchCluster.Theory

variable {α : Type} [LinearOrder α]

/-- Strictly increasing. -/
abbrev Increasing (A : List α) : Prop := A.Pairwise (· < ·)

/-- The elements of either list, in increasing order. -/
def union (A B : List α) : List α := (A.toFinset ∪ B.toFinset).sort

/-- The elements of both lists, in increasing order. -/
def inter (A B : List α) : List α := (A.toFinset ∩ B.toFinset).sort

/-- An element of a union, and which of the lists lacks it. -/
structure Merged (α : Type) where
  value : α
  missing0 : Bool
  missing1 : Bool
  deriving DecidableEq

/-- The union, each element with what the lists lack. -/
def merged (A B : List α) : List (Merged α) :=
  (union A B).map fun x => ⟨x, decide (x ∉ A), decide (x ∉ B)⟩

theorem merged_nil : merged ([] : List α) [] = [] := by
  simp [merged, union]

/-- The list past `x`, when `x` is its head. -/
def advance (x : α) : List α → List α
  | [] => []
  | a :: A => if a = x then A else a :: A

@[simp] theorem advance_nil (x : α) : advance x [] = [] := rfl

@[simp] theorem advance_head (x : α) (A : List α) : advance x (x :: A) = A := if_pos rfl

/-- What is past the least element. -/
theorem mem_advance {A : List α} (increasing : Increasing A) {x : α} (least : ∀ a ∈ A, x ≤ a)
    (y : α) : y ∈ advance x A ↔ y ∈ A ∧ y ≠ x := by
  cases A with
  | nil => simp
  | cons a A =>
    obtain ⟨above, _⟩ := List.pairwise_cons.mp increasing
    by_cases head : a = x
    · subst head
      rw [advance_head, List.mem_cons]
      constructor
      · intro member
        exact ⟨Or.inr member, ne_of_gt (above y member)⟩
      · rintro ⟨rfl | member, other⟩
        · exact absurd rfl other
        · exact member
    · rw [Theory.advance, if_neg head]
      constructor
      · intro member
        refine ⟨member, ?_⟩
        rintro rfl
        rcases List.mem_cons.mp member with rfl | member
        · exact head rfl
        · exact absurd (above y member) (not_lt_of_ge (least a List.mem_cons_self))
      · exact And.left

theorem least_advance {A : List α} {x y : α} (least : ∀ a ∈ A, x ≤ a) (member : y ∈ advance x A) :
    x ≤ y := by
  cases A with
  | nil => exact absurd member List.not_mem_nil
  | cons a A =>
    by_cases head : a = x
    · rw [Theory.advance, if_pos head] at member
      exact least y (List.mem_cons_of_mem _ member)
    · rw [Theory.advance, if_neg head] at member
      exact least y member

/-- Moving past the least element drops it. -/
theorem advance_eq_drop {A : List α} {x : α} (least : ∀ a ∈ A, x ≤ a) (increasing : Increasing A) :
    advance x A = A.drop (if x ∈ A then 1 else 0) := by
  cases A with
  | nil => simp
  | cons a A =>
    obtain ⟨above, _⟩ := List.pairwise_cons.mp increasing
    by_cases head : a = x
    · subst head
      simp
    · have absent : x ∉ a :: A := by
        intro member
        rcases List.mem_cons.mp member with rfl | member
        · exact head rfl
        · exact absurd (above x member) (not_lt_of_ge (least a List.mem_cons_self))
      rw [if_neg absent, advance, if_neg head]
      rfl

/-- Words are ordered as numbers. -/
instance bitVecLinearOrder (w : Nat) : LinearOrder (BitVec w) where
  le_refl := BitVec.le_refl
  le_trans _ _ _ := BitVec.le_trans
  lt_iff_le_not_ge x y := by
    rw [BitVec.lt_def, BitVec.le_def, BitVec.le_def]
    omega
  le_antisymm _ _ := BitVec.le_antisymm
  le_total := BitVec.le_total
  toDecidableLE := inferInstance
  toDecidableEq := inferInstance
  toDecidableLT := inferInstance

section Step

variable {A B : List α} {x : α} (increasingA : Increasing A) (increasingB : Increasing B)
  (leastA : ∀ a ∈ A, x ≤ a) (leastB : ∀ b ∈ B, x ≤ b)

include increasingA increasingB leastA leastB

/-- The least element leads the union. -/
theorem union_step (member : x ∈ A ∨ x ∈ B) :
    union A B = x :: union (advance x A) (advance x B) := by
  have fresh : x ∉ (advance x A).toFinset ∪ (advance x B).toFinset := by
    simp [mem_advance increasingA leastA, mem_advance increasingB leastB]
  have below : ∀ y ∈ (advance x A).toFinset ∪ (advance x B).toFinset, x ≤ y := by
    intro y member
    rw [Finset.mem_union, List.mem_toFinset, List.mem_toFinset] at member
    rcases member with member | member
    · exact least_advance leastA member
    · exact least_advance leastB member
  have split : A.toFinset ∪ B.toFinset =
      insert x ((advance x A).toFinset ∪ (advance x B).toFinset) := by
    ext y
    simp only [Finset.mem_union, List.mem_toFinset, Finset.mem_insert,
      mem_advance increasingA leastA, mem_advance increasingB leastB]
    by_cases same : y = x
    · subst same
      simpa using member
    · simp [same]
  rw [union, union, split, Finset.sort_insert _ below fresh]

/-- **One step of a merge.** -/
theorem merged_step (member : x ∈ A ∨ x ∈ B) :
    merged A B = ⟨x, decide (x ∉ A), decide (x ∉ B)⟩ :: merged (advance x A) (advance x B) := by
  rw [merged, union_step increasingA increasingB leastA leastB member, List.map_cons, merged]
  congr 1
  apply List.map_congr_left
  intro y later
  have other : y ≠ x := by
    rintro rfl
    simp [union, mem_advance increasingA leastA, mem_advance increasingB leastB] at later
  simp [mem_advance increasingA leastA, mem_advance increasingB leastB, other]

end Step

/-! ## Passing two lists side by side -/

theorem inter_eq_filter {A B : List α} (increasing : Increasing A) :
    inter A B = A.filter fun x => decide (x ∈ B) := by
  have kept : Increasing (A.filter fun x => decide (x ∈ B)) := increasing.filter _
  have same : A.toFinset ∩ B.toFinset = (A.filter fun x => decide (x ∈ B)).toFinset := by
    ext x
    simp
  rw [inter, same, (List.toFinset_sort _ kept.nodup).mpr (kept.imp le_of_lt)]

theorem inter_comm (A B : List α) : inter A B = inter B A := by
  rw [inter, inter, Finset.inter_comm]

section Sides

variable (A : Bool → List α)

/-- The elements of a list that the other one has. -/
def common (m : Bool) : List α := (A m).filter fun x => decide (x ∈ A !m)

/-- Those among the first `n`. -/
def shared (m : Bool) (n : Nat) : List α := ((A m).take n).filter fun x => decide (x ∈ A !m)

/-- Of each list as many elements have been passed that they are below what is left of
the other. -/
def Passed (c : Bool → Nat) : Prop :=
  ∀ m, ∀ a ∈ (A m).take (c m), ∀ b ∈ (A !m).drop (c !m), a < b

variable {A}

theorem common_eq_inter (increasing : ∀ m, Increasing (A m)) (m : Bool) :
    common A m = inter (A false) (A true) := by
  cases m with
  | false => exact (inter_eq_filter (increasing false)).symm
  | true => exact (inter_eq_filter (increasing true)).symm.trans (inter_comm _ _)

/-- What is shared so far leads what is shared. -/
theorem shared_initial (m : Bool) (n : Nat) : shared A m n <+: common A m :=
  (List.take_prefix n (A m)).filter _

theorem shared_succ {m : Bool} {n : Nat} {x : α} {rest : List α} (left : (A m).drop n = x :: rest) :
    shared A m (n + 1) = shared A m n ++ if x ∈ A !m then [x] else [] := by
  have head : (A m)[n]? = some x := by
    rw [← Nat.add_zero n, ← List.getElem?_drop, left]
    rfl
  rw [shared, List.take_add_one, head, List.filter_append, shared]
  by_cases member : x ∈ A !m
  · simp [member]
  · simp [member]

omit [LinearOrder α] in
theorem drop_succ_of_cons {l : List α} {n : Nat} {x : α} {rest : List α}
    (left : l.drop n = x :: rest) : l.drop (n + 1) = rest := by
  rw [← List.drop_drop, left]
  rfl

omit [LinearOrder α] in
theorem mem_take_succ {l : List α} {n : Nat} {x a : α} {rest : List α}
    (left : l.drop n = x :: rest) (member : a ∈ l.take (n + 1)) : a ∈ l.take n ∨ a = x := by
  have head : l[n]? = some x := by
    rw [← Nat.add_zero n, ← List.getElem?_drop, left]
    rfl
  rw [List.take_add_one, head, List.mem_append] at member
  rcases member with before | here
  · exact Or.inl before
  · exact Or.inr (List.mem_singleton.mp here)

theorem passed_zero : Passed A fun _ => 0 := by
  intro m a member
  exact absurd member (by simp)

namespace Passed

variable {c d : Bool → Nat} (passed : Passed A c)

include passed

/-- A lesser head is missing in the other list. -/
theorem not_mem (increasing : ∀ m, Increasing (A m)) {m : Bool} {x y : α} {rest other : List α}
    (left : (A m).drop (c m) = x :: rest) (right : (A !m).drop (c !m) = y :: other) (less : x < y) :
    x ∉ A !m := by
  intro member
  rw [← List.take_append_drop (c !m) (A !m), List.mem_append] at member
  rcases member with before | after
  · have below := passed (!m) x before x (by rw [Bool.not_not, left]; exact List.mem_cons_self)
    exact lt_irrefl x below
  · have sorted : Increasing (y :: other) := right ▸ (increasing !m).sublist (List.drop_sublist _ _)
    rw [right] at after
    rcases List.mem_cons.mp after with rfl | later
    · exact lt_irrefl x less
    · exact lt_asymm less ((List.pairwise_cons.mp sorted).1 x later)

/-- A lesser head is passed alone. -/
theorem skip (increasing : ∀ m, Increasing (A m)) {m : Bool} {x y : α} {rest other : List α}
    (left : (A m).drop (c m) = x :: rest) (right : (A !m).drop (c !m) = y :: other) (less : x < y)
    (moves : d m = c m + 1) (stays : (d !m) = c !m) : Passed A d := by
  have sorted : Increasing (y :: other) := right ▸ (increasing !m).sublist (List.drop_sublist _ _)
  have one : ∀ a ∈ (A m).take (d m), ∀ b ∈ (A !m).drop (d !m), a < b := by
    intro a member b later
    rw [moves] at member
    rw [stays] at later
    rcases mem_take_succ left member with before | rfl
    · exact passed m a before b later
    · rw [right] at later
      rcases List.mem_cons.mp later with rfl | later
      · exact less
      · exact lt_trans less ((List.pairwise_cons.mp sorted).1 b later)
  have two : ∀ b ∈ (A !m).take (d !m), ∀ a ∈ (A m).drop (d m), b < a := by
    intro b before a later
    rw [stays] at before
    rw [moves, drop_succ_of_cons left] at later
    have below := passed (!m) b before a
    rw [Bool.not_not, left] at below
    exact below (List.mem_cons_of_mem _ later)
  intro k
  by_cases same : k = m
  · rw [same]
    exact one
  · have other : k = !m := by
      cases k <;> cases m <;> simp_all
    rw [other, Bool.not_not]
    exact two

/-- Equal heads are passed together. -/
theorem both (increasing : ∀ m, Increasing (A m)) {x : α} {rest : Bool → List α}
    (left : ∀ m, (A m).drop (c m) = x :: rest m) (moves : ∀ m, d m = c m + 1) : Passed A d := by
  intro m a member b later
  have sorted : Increasing (x :: rest !m) :=
    left (!m) ▸ (increasing !m).sublist (List.drop_sublist _ _)
  rw [moves, drop_succ_of_cons (left !m)] at later
  rw [moves] at member
  rcases mem_take_succ (left m) member with before | rfl
  · refine passed m a before b ?_
    rw [left]
    exact List.mem_cons_of_mem _ later
  · exact (List.pairwise_cons.mp sorted).1 b later

/-- Once a list is used up, everything the two share has been passed. -/
theorem shared_all {k : Bool} (spent : (A k).length ≤ c k) (m : Bool) :
    shared A m (c m) = common A m := by
  by_cases same : m = k
  · rw [same, shared, List.take_of_length_le spent, common]
  · have other : k = !m := by
      cases k <;> cases m <;> simp_all
    have none : ((A m).drop (c m)).filter (fun x => decide (x ∈ A !m)) = [] := by
      rw [List.filter_eq_nil_iff]
      intro b later member
      rw [decide_eq_true_iff] at member
      have below := passed (!m) b (by rw [List.take_of_length_le (other ▸ spent)]; exact member) b
      rw [Bool.not_not] at below
      exact lt_irrefl b (below later)
    have split : common A m = shared A m (c m) ++
        ((A m).drop (c m)).filter (fun x => decide (x ∈ A !m)) := by
      rw [common, shared, ← List.filter_append, List.take_append_drop]
    rw [split, none, List.append_nil]

end Passed

end Sides

end SnitchCluster.Theory
