/-
# Theory.Moves -- cells copied onto each other

A move copies one cell of a memory onto another, `run` performs moves one after the other.
Where a content ends up does not depend on what it is: a run leaves in each cell what the
memory held in the cell's `origin` (`run_eq`), so that one function of the moves answers for
every memory.

For moves with destinations of their own the order matters in one way only.  A move that reads
its source before another writes it delivers the source (`origin_timely`); the source of a move
that comes too late, and that nothing else reads, is left nowhere (`origin_late`).
-/
import Mathlib.Data.List.Basic
import Mathlib.Logic.Function.Basic

namespace SnitchCluster.Theory.Moves

universe u v w

/-- Copy the cell `src` to the cell `dst`. -/
structure Move (ι : Type u) where
  src : ι
  dst : ι
  deriving DecidableEq

variable {ι : Type u} [DecidableEq ι] {α : Type v} {β : Type w}

namespace Move

def apply (move : Move ι) (m : ι → α) : ι → α :=
  Function.update m move.dst (m move.src)

theorem apply_comp (move : Move ι) (f : α → β) (m : ι → α) :
    move.apply (f ∘ m) = f ∘ move.apply m := by
  unfold apply
  rw [Function.comp_update]
  rfl

end Move

def run (moves : List (Move ι)) (m : ι → α) : ι → α :=
  moves.foldl (fun m move => move.apply m) m

/-- The cell whose content the moves leave in a cell. -/
def origin (moves : List (Move ι)) : ι → ι :=
  run moves id

section Runs

variable (moves later : List (Move ι)) (move : Move ι)

@[simp] theorem run_nil (m : ι → α) : run [] m = m := rfl

@[simp] theorem run_cons (m : ι → α) : run (move :: moves) m = run moves (move.apply m) := rfl

theorem run_append (m : ι → α) : run (moves ++ later) m = run later (run moves m) :=
  List.foldl_append

theorem run_comp (f : α → β) (m : ι → α) : run moves (f ∘ m) = f ∘ run moves m := by
  induction moves generalizing m with
  | nil => rfl
  | cons move moves ih => rw [run_cons, run_cons, move.apply_comp, ih]

/-- **A run is a relocation**, whatever the cells hold. -/
theorem run_eq (m : ι → α) : run moves m = m ∘ origin moves := by
  have relocated := run_comp moves m id
  rwa [Function.comp_id] at relocated

@[simp] theorem origin_nil (x : ι) : origin [] x = x := rfl

theorem origin_append (x : ι) :
    origin (moves ++ later) x = origin moves (origin later x) := by
  unfold origin
  rw [run_append, run_eq later (run moves id)]
  rfl

theorem origin_cons (x : ι) :
    origin (move :: moves) x = if origin moves x = move.dst then move.src else origin moves x := by
  rw [← List.singleton_append, origin_append]
  exact Function.update_apply id _ _ _

end Runs

section Origins

variable {moves : List (Move ι)} {move : Move ι} {x : ι}

theorem origin_unwritten (unwritten : ∀ t ∈ moves, t.dst ≠ x) : origin moves x = x := by
  induction moves with
  | nil => rfl
  | cons t moves ih =>
    rw [List.forall_mem_cons] at unwritten
    rw [origin_cons, ih unwritten.2, if_neg unwritten.1.symm]

/-- What is only copied onto itself is at most where it was. -/
theorem origin_home (home : ∀ t ∈ moves, t.src = x → t.dst = x) {y : ι}
    (found : origin moves y = x) : y = x := by
  induction moves with
  | nil => exact found
  | cons t moves ih =>
    rw [List.forall_mem_cons] at home
    apply ih home.2
    rw [origin_cons] at found
    split at found
    · next there => exact there.trans (home.1 found)
    · exact found

/-- What moves into some cells comes from them. -/
theorem origin_within (S : ι → Prop) (closed : ∀ t ∈ moves, S t.dst → S t.src) (own : S x) :
    S (origin moves x) := by
  induction moves with
  | nil => exact own
  | cons t moves ih =>
    rw [List.forall_mem_cons] at closed
    have rest := ih closed.2
    rw [origin_cons]
    split
    · next there =>
        rw [there] at rest
        exact closed.1 rest
    · exact rest

/-- Where no source is written, a cell comes from one of the moves into it, or stays. -/
theorem origin_fresh (fresh : ∀ t ∈ moves, ∀ u ∈ moves, t.src ≠ u.dst) :
    (∃ t ∈ moves, t.dst = x ∧ origin moves x = t.src) ∨
      (∀ t ∈ moves, t.dst ≠ x) ∧ origin moves x = x := by
  induction moves with
  | nil => exact .inr ⟨fun _ none => absurd none List.not_mem_nil, rfl⟩
  | cons t moves ih =>
    have rest : ∀ s ∈ moves, ∀ u ∈ moves, s.src ≠ u.dst := fun s later u later' =>
      fresh s (List.mem_cons_of_mem t later) u (List.mem_cons_of_mem t later')
    rw [origin_cons]
    rcases ih rest with ⟨s, later, here, found⟩ | ⟨unwritten, stays⟩
    · refine .inl ⟨s, List.mem_cons_of_mem t later, here, ?_⟩
      rw [found, if_neg (fresh s (List.mem_cons_of_mem t later) t List.mem_cons_self)]
    · rw [stays]
      by_cases here : x = t.dst
      · exact .inl ⟨t, List.mem_cons_self, here.symm, if_pos here⟩
      · refine .inr ⟨?_, if_neg here⟩
        rw [List.forall_mem_cons]
        exact ⟨fun same => here same.symm, unwritten⟩

/-- Where all sources hold one value, it is moved. -/
theorem run_constant {m : ι → α} {v : α} (held : ∀ t ∈ moves, m t.src = v) :
    (∃ t ∈ moves, t.dst = x) ∧ run moves m x = v ∨
      (∀ t ∈ moves, t.dst ≠ x) ∧ run moves m x = m x := by
  induction moves generalizing m with
  | nil => exact .inr ⟨fun _ none => absurd none List.not_mem_nil, rfl⟩
  | cons t moves ih =>
    rw [List.forall_mem_cons] at held
    have kept : ∀ s ∈ moves, t.apply m s.src = v := by
      intro s later
      rw [Move.apply, Function.update_apply]
      split
      · exact held.1
      · exact held.2 s later
    rw [run_cons]
    rcases ih kept with ⟨⟨s, later, here⟩, found⟩ | ⟨unwritten, stays⟩
    · exact .inl ⟨⟨s, List.mem_cons_of_mem t later, here⟩, found⟩
    · rw [stays, Move.apply]
      by_cases here : x = t.dst
      · refine .inl ⟨⟨t, List.mem_cons_self, here.symm⟩, ?_⟩
        rw [here, Function.update_self, held.1]
      · rw [Function.update_of_ne here, List.forall_mem_cons]
        exact .inr ⟨⟨fun same => here same.symm, unwritten⟩, rfl⟩

/-- A destination holds what the source held when it was read. -/
theorem origin_written {before after : List (Move ι)} (last : ∀ t ∈ after, t.dst ≠ move.dst) :
    origin (before ++ move :: after) move.dst = origin before move.src := by
  rw [origin_append, origin_cons, origin_unwritten last, if_pos rfl]

end Origins

/-! ## Every destination once -/

section Once

variable {τ : Type w} [DecidableEq τ] {order : List τ} {f : τ → Move ι} {t l : τ}
variable (nodup : order.Nodup)

include nodup

/-- What comes before and after an item. -/
theorem split_around (listed : t ∈ order) :
    ∃ before after, order = before ++ t :: after ∧ t ∉ after ∧
      ∀ s ∈ before, order.idxOf s < order.idxOf t := by
  obtain ⟨before, after, rfl⟩ := List.append_of_mem listed
  rw [List.nodup_append, List.nodup_cons] at nodup
  obtain ⟨-, ⟨fresh, -⟩, apart⟩ := nodup
  refine ⟨before, after, rfl, fresh, fun s earlier => ?_⟩
  have absent : t ∉ before := fun both => apart _ both _ List.mem_cons_self rfl
  rw [List.idxOf_append_of_mem earlier, List.idxOf_append_of_notMem absent, List.idxOf_cons_self]
  exact Nat.lt_of_lt_of_le (List.idxOf_lt_length_of_mem earlier) (Nat.le_add_right _ _)

/-- A destination of one move only holds what the source held when it was read. -/
theorem origin_listed (listed : t ∈ order)
    (unique : ∀ s ∈ order, (f s).dst = (f t).dst → s = t) :
    ∃ before : List τ, (∀ s ∈ before, s ∈ order ∧ order.idxOf s < order.idxOf t) ∧
      origin (order.map f) (f t).dst = origin (before.map f) (f t).src := by
  obtain ⟨before, after, split, fresh, earlier⟩ := split_around nodup listed
  refine ⟨before, fun s inside => ⟨by simp [split, inside], earlier s inside⟩, ?_⟩
  have last : ∀ m ∈ after.map f, m.dst ≠ (f t).dst := by
    rw [List.forall_mem_map]
    intro s later same
    rw [unique s (by simp [split, later]) same] at later
    exact fresh later
  conv => lhs; rw [split]
  rw [List.map_append, List.map_cons, origin_written last]

/-- **In time.** -/
theorem origin_timely (listed : t ∈ order)
    (unique : ∀ s ∈ order, (f s).dst = (f t).dst → s = t)
    (timely : ∀ s ∈ order, (f s).dst = (f t).src → order.idxOf t ≤ order.idxOf s) :
    origin (order.map f) (f t).dst = (f t).src := by
  obtain ⟨before, earlier, found⟩ := origin_listed nodup listed unique
  rw [found]
  apply origin_unwritten
  rw [List.forall_mem_map]
  intro s inside same
  obtain ⟨member, soon⟩ := earlier s inside
  exact Nat.not_lt.mpr (timely s member same) soon

/-- **Too late.** -/
theorem origin_late (listed : t ∈ order) (overwrites : (f t).dst = (f l).src)
    (first : order.idxOf t < order.idxOf l) (elsewhere : (f t).src ≠ (f l).src)
    (reader : ∀ s ∈ order, (f s).src = (f l).src → s = l) (y : ι) :
    origin (order.map f) y ≠ (f l).src := by
  obtain ⟨before, after, split, -, earlier⟩ := split_around nodup listed
  have unread : ∀ m ∈ before.map f, m.src = (f l).src → m.dst = (f l).src := by
    rw [List.forall_mem_map]
    intro s inside same
    exfalso
    have soon := earlier s inside
    rw [reader s (by simp [split, inside]) same] at soon
    exact Nat.lt_asymm soon first
  intro found
  rw [split, List.map_append, List.map_cons, origin_append] at found
  have there := origin_home unread found
  rw [origin_cons] at there
  split at there
  · exact elsewhere there
  · next kept => exact kept (there.trans overwrites.symm)

end Once

/-! ## Rows with a stride -/

/-- `repeat` rows of `size` cells, each a stride after the one before. -/
structure Rows (ι : Type u) where
  dst : Nat → ι
  src : Nat → ι
  size : Nat
  dstStride : Nat
  srcStride : Nat
  rows : Nat

def Rows.moves (t : Rows ι) : List (Move ι) :=
  (List.range t.rows).flatMap fun r => (List.range t.size).map fun b =>
    ⟨t.src (r * t.srcStride + b), t.dst (r * t.dstStride + b)⟩

omit [DecidableEq ι] in
theorem Rows.mem_moves {t : Rows ι} {move : Move ι} : move ∈ t.moves ↔
    ∃ r < t.rows, ∃ b < t.size,
      move = ⟨t.src (r * t.srcStride + b), t.dst (r * t.dstStride + b)⟩ := by
  simp only [moves, List.mem_flatMap, List.mem_range, List.mem_map, eq_comm]

end SnitchCluster.Theory.Moves
