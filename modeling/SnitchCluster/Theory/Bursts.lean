/-
# Theory.Bursts -- a stream of beats cut into bursts

Bursts come one after the other, each a number of beats of which the last is marked.  Cut by
the lengths, the stream falls into the bursts; picked by the mark, it gives the last beat of
each (`splitLengths_last`), also while the stream is under way.
-/
import Mathlib.Data.List.SplitLengths

namespace SnitchCluster.Theory

/-- The marks of bursts with these numbers of beats before the last. -/
def burstMarks (lens : List Nat) : List Bool :=
  lens.flatMap fun n => List.replicate n false ++ [true]

theorem burstMarks_cons (n : Nat) (lens : List Nat) :
    burstMarks (n :: lens) = List.replicate n false ++ true :: burstMarks lens := by
  simp [burstMarks]

variable {α : Type} {marked : α → Bool}

/-- The stream begins with a whole burst, or is not through its first. -/
theorem first_burst {xs : List α} {n : Nat} {later : List Bool}
    (shape : xs.map marked <+: List.replicate n false ++ true :: later) :
    (∃ front last rest, xs = front ++ last :: rest ∧ front.length = n ∧
        (∀ x ∈ front, marked x = false) ∧ marked last = true ∧ rest.map marked <+: later) ∨
      ∀ x ∈ xs, marked x = false := by
  obtain ⟨more, eq⟩ := shape
  rw [List.append_eq_append_iff] at eq
  rcases eq with ⟨short, unmarked, -⟩ | ⟨tail, long, after⟩
  · right
    intro x among
    have mark : marked x ∈ List.replicate n false := by
      rw [unmarked]
      exact List.mem_append_left _ (List.mem_map_of_mem among)
    exact List.eq_of_mem_replicate mark
  · obtain ⟨front, others, rfl, plain, there⟩ := List.map_eq_append_iff.mp long
    have unmarked : ∀ x ∈ front, marked x = false := by
      intro x among
      have mark : marked x ∈ List.replicate n false := by
        rw [← plain]
        exact List.mem_map_of_mem among
      exact List.eq_of_mem_replicate mark
    cases others with
    | nil =>
      right
      simpa using unmarked
    | cons last rest =>
      rw [← there, List.map_cons, List.cons_append, List.cons.injEq] at after
      refine .inl ⟨front, last, rest, rfl, ?_, unmarked, after.1.symm, ⟨more, after.2.symm⟩⟩
      rw [← List.length_map marked, plain, List.length_replicate]

/-- **The marked beats are the last ones of the bursts.** -/
theorem splitLengths_last {lens : List Nat} {later : List Bool} {xs : List α}
    (shape : xs.map marked <+: burstMarks lens ++ later) {k : Nat} {burst : List α} {x : α}
    (here : ((lens.map (· + 1)).splitLengths xs)[k]? = some burst)
    (closes : (xs.filter marked)[k]? = some x) :
    ∃ front, burst = front ++ [x] ∧ lens[k]? = some front.length := by
  induction lens generalizing xs k with
  | nil => simp at here
  | cons n lens ih =>
    rw [burstMarks_cons, List.append_assoc, List.cons_append] at shape
    rcases first_burst shape with ⟨front, last, rest, rfl, length, unmarked, final, shape⟩ | none
    · have picked : (front ++ last :: rest).filter marked = last :: rest.filter marked := by
        rw [List.filter_append, List.filter_eq_nil_iff.mpr (by simpa using unmarked),
          List.nil_append, List.filter_cons_of_pos final]
      have split : (((n :: lens).map (· + 1)).splitLengths (front ++ last :: rest)) =
          (front ++ [last]) :: (lens.map (· + 1)).splitLengths rest := by
        have cut : (front ++ last :: rest) = (front ++ [last]) ++ rest := by simp
        have size : n + 1 = (front ++ [last]).length := by simp [length]
        rw [cut, List.map_cons, List.splitLengths, size, List.splitAt_eq, List.take_left,
          List.drop_left]
      rw [split] at here
      rw [picked] at closes
      cases k with
      | zero =>
        simp only [List.getElem?_cons_zero, Option.some.injEq] at here closes
        exact ⟨front, by rw [← here, closes], by simp [length]⟩
      | succ k => exact ih shape here closes
    · rw [List.filter_eq_nil_iff.mpr (by simpa using none)] at closes
      simp at closes

end SnitchCluster.Theory
