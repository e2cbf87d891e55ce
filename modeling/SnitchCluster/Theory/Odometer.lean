/-
# Theory.Odometer -- loop nests and the counters that walk them

A loop nest enumerates `p + ∑ iₖ · sₖ` with the innermost index fastest (`nest`).
Hardware walks it without indices: a chain of counters, each of which advances
when all counters below it wrap, and one pointer that only ever adds the stride
of the outermost counter that advances.  That stride is a *difference*: it undoes
the distance the inner loops have walked.

`remaining` lists the addresses still to come from any reading of the counters.
Two facts carry every use: the current pointer heads it (`remaining_advance`), and
from fresh counters it is the nest of the absolute strides (`remaining_fresh`).
The levels are listed innermost first, the nest outermost first.
-/
import Mathlib.Algebra.BigOperators.Group.List.Basic
import Mathlib.Algebra.Group.Action.Defs
import Mathlib.Tactic.Abel

namespace SnitchCluster.Theory

universe u

/-! ## Loop nests -/

section Nest

variable {α : Type u} [AddCommGroup α]

/-- The addresses of a loop nest, the outermost loop first. -/
def nest : List (Nat × α) → α → List α
  | [], p => [p]
  | (count, stride) :: inner, p =>
    (List.range count).flatMap fun i => nest inner (p + i • stride)

@[simp] theorem nest_nil (p : α) : nest [] p = [p] := rfl

theorem nest_cons (count : Nat) (stride : α) (inner : List (Nat × α)) (p : α) :
    nest ((count, stride) :: inner) p =
      (List.range count).flatMap fun i => nest inner (p + i • stride) := rfl

/-- One run of the innermost loop. -/
def sweep (count : Nat) (stride p : α) : List α :=
  (List.range count).map fun i => p + i • stride

theorem sweep_succ (count : Nat) (stride p : α) :
    sweep (count + 1) stride p = p :: sweep count stride (p + stride) := by
  rw [sweep, List.range_succ_eq_map, List.map_cons, List.map_map, zero_nsmul, add_zero, sweep]
  congr 1
  refine List.map_congr_left fun i _ => ?_
  simp only [Function.comp_apply, Nat.succ_eq_add_one, add_nsmul, one_nsmul]
  abel

theorem sweep_one (stride p : α) : sweep 1 stride p = [p] := by
  rw [sweep_succ]
  rfl

/-- The innermost loop runs at every address of the outer nest. -/
theorem nest_concat (outer : List (Nat × α)) (count : Nat) (stride p : α) :
    nest (outer ++ [(count, stride)]) p = (nest outer p).flatMap (sweep count stride) := by
  induction outer generalizing p with
  | nil =>
    rw [List.nil_append, nest_cons, nest_nil, List.flatMap_singleton, sweep, List.map_eq_flatMap]
    rfl
  | cons loop outer ih =>
    obtain ⟨n, s⟩ := loop
    rw [List.cons_append, nest_cons, nest_cons, List.flatMap_assoc]
    exact List.flatMap_congr fun i _ => ih _

/-- Outer loops of one iteration do nothing. -/
theorem nest_ones (ones inner : List (Nat × α)) (once : ∀ loop ∈ ones, loop.1 = 1) (p : α) :
    nest (ones ++ inner) p = nest inner p := by
  induction ones with
  | nil => rfl
  | cons loop ones ih =>
    obtain ⟨n, s⟩ := loop
    have one : n = 1 := once (n, s) (by simp)
    rw [one, List.cons_append, nest_cons, List.range_one, List.flatMap_singleton, zero_nsmul, add_zero]
    exact ih fun loop member => once loop (List.mem_cons_of_mem _ member)

theorem length_nest (loops : List (Nat × α)) (p : α) :
    (nest loops p).length = (loops.map Prod.fst).prod := by
  induction loops generalizing p with
  | nil => rfl
  | cons loop loops ih =>
    obtain ⟨n, s⟩ := loop
    rw [nest_cons, List.length_flatMap, List.map_cons, List.prod_cons]
    simp only [ih, List.map_const', List.length_range, List.sum_replicate, smul_eq_mul]

end Nest

/-! ## Counters -/

/-- One counter: it stands at `idx`, wraps after `bound`, and moves the pointer by
`stride` when it advances. -/
@[ext] structure Level (α : Type u) where
  idx : Nat
  bound : Nat
  stride : α

namespace Odometer

variable {α : Type u}

def Last (l : Level α) : Prop := l.idx = l.bound

instance (l : Level α) : Decidable (Last l) := inferInstanceAs (Decidable (_ = _))

/-- Every counter is at its bound. -/
def Done (ls : List (Level α)) : Prop := ∀ l ∈ ls, Last l

/-- The counters after one step: those below the first free one wrap. -/
def advance : List (Level α) → List (Level α)
  | [] => []
  | l :: outer =>
    if Last l then { l with idx := 0 } :: advance outer
    else { l with idx := l.idx + 1 } :: outer

/-- The stride of the outermost counter that advances. -/
def selected : List (Level α) → Option α
  | [] => none
  | l :: outer => if Last l then (selected outer).or (some l.stride) else some l.stride

theorem selected_cons_last {l : Level α} (last : Last l) {outer : List (Level α)} {s : α}
    (above : selected outer = some s) : selected (l :: outer) = some s := by
  simp [selected, last, above]

theorem selected_cons_free {l : Level α} (free : ¬Last l) (outer : List (Level α)) :
    selected (l :: outer) = some l.stride := by
  simp [selected, free]

/-- Some counter is the first that is not at its bound, and its stride is selected. -/
theorem exists_first_free {n : Nat} (f : Fin n → Level α) (running : ¬Done (List.ofFn f)) :
    ∃ k, (∀ j < k, Last (f j)) ∧ ¬Last (f k) ∧ selected (List.ofFn f) = some (f k).stride := by
  induction n with
  | zero =>
    rw [List.ofFn_zero] at running
    exact absurd (fun _ member => nomatch member) running
  | succ n ih =>
    rw [List.ofFn_succ] at running ⊢
    by_cases last : Last (f 0)
    · have above : ¬Done (List.ofFn fun i => f i.succ) := fun done => running (by
        intro l member
        rcases List.mem_cons.mp member with rfl | member
        · exact last
        · exact done l member)
      obtain ⟨k, below, free, stride⟩ := ih _ above
      refine ⟨k.succ, ?_, free, selected_cons_last last stride⟩
      intro j less
      cases j using Fin.cases with
      | zero => exact last
      | succ j => exact below j (Fin.succ_lt_succ_iff.mp less)
    · exact ⟨0, fun j less => absurd less (Fin.not_lt_zero j), last,
        selected_cons_free last _⟩

theorem advance_ofFn {n : Nat} (f : Fin n → Level α) :
    advance (List.ofFn f) = List.ofFn fun k =>
      if ∀ j < k, Last (f j) then
        { f k with idx := if Last (f k) then 0 else (f k).idx + 1 }
      else f k := by
  induction n with
  | zero => rfl
  | succ n ih =>
    have least : ∀ j < (0 : Fin (n + 1)), Last (f j) := fun j less =>
      absurd less (Fin.not_lt_zero j)
    rw [List.ofFn_succ, List.ofFn_succ, advance, if_pos least]
    by_cases last : Last (f 0)
    · rw [if_pos last, if_pos last, ih]
      congr 2
      funext k
      have shift : (∀ j < k.succ, Last (f j)) ↔ ∀ j < k, Last (f j.succ) := by
        constructor
        · exact fun below j less => below j.succ (Fin.succ_lt_succ_iff.mpr less)
        · intro below j less
          cases j using Fin.cases with
          | zero => exact last
          | succ j => exact below j (Fin.succ_lt_succ_iff.mp less)
      simp only [shift]
    · rw [if_neg last, if_neg last]
      congr 2
      funext k
      have blocked : ¬∀ j < k.succ, Last (f j) := fun below => last (below 0 k.succ_pos)
      rw [if_neg blocked]

/-! ## Marking the final element -/

/-- Each element with a flag that is set on the last one. -/
def flagLast {β : Type u} : List β → List (β × Bool)
  | [] => []
  | x :: rest => (x, rest.isEmpty) :: flagLast rest

@[simp] theorem map_fst_flagLast {β : Type u} (l : List β) : (flagLast l).map Prod.fst = l := by
  induction l with
  | nil => rfl
  | cons x rest ih => rw [flagLast, List.map_cons, ih]

/-- The elements one by one. -/
theorem getElem_flagLast {β : Type u} {l : List β} {k : Nat} (inside : k < l.length) :
    (flagLast l)[k]? = some (l[k], decide (k + 1 = l.length)) := by
  induction l generalizing k with
  | nil => exact absurd inside (Nat.not_lt_zero _)
  | cons x rest ih =>
    cases k with
    | zero => cases rest <;> rfl
    | succ k =>
      have within : k < rest.length := Nat.lt_of_succ_lt_succ inside
      rw [flagLast, List.getElem?_cons_succ, ih within]
      simp

/-- Some element carries the flag. -/
theorem exists_flagged {β : Type u} {l : List β} (nonempty : l ≠ []) :
    ∃ x, (x, true) ∈ flagLast l := by
  induction l with
  | nil => exact absurd rfl nonempty
  | cons x rest ih =>
    cases rest with
    | nil => exact ⟨x, by simp [flagLast]⟩
    | cons y rest =>
      obtain ⟨z, member⟩ := ih (List.cons_ne_nil _ _)
      exact ⟨z, List.mem_cons_of_mem _ member⟩

/-- Nothing follows the flag. -/
theorem nil_of_flagged {β : Type u} {l : List β} {before after : List (β × Bool)}
    {x : β × Bool} (split : before ++ x :: after = flagLast l) (flag : x.2 = true) :
    after = [] := by
  induction l generalizing before with
  | nil => exact absurd split (by simp [flagLast])
  | cons y rest ih =>
    cases before with
    | nil =>
      rw [List.nil_append, flagLast] at split
      obtain ⟨rfl, tail⟩ := List.cons.inj split
      rw [tail, List.isEmpty_iff.mp flag, flagLast]
    | cons b before =>
      rw [List.cons_append, flagLast] at split
      exact ih (List.cons.inj split).2

variable [AddCommGroup α]

/-- The addresses to come.  `undo` is what the inner levels add to every stride. -/
def remaining : List (Level α) → α → α → List α
  | [], _, p => [p]
  | l :: outer, undo, p =>
    let s := l.stride + undo
    sweep (l.bound - l.idx + 1) s p ++
      (remaining outer (undo + l.bound • s) (p - l.idx • s)).tail.flatMap
        (sweep (l.bound + 1) s)

/-- The present address comes first. -/
theorem remaining_head (ls : List (Level α)) (undo p : α) :
    remaining ls undo p = p :: (remaining ls undo p).tail := by
  cases ls with
  | nil => rfl
  | cons l outer =>
    rw [remaining, sweep_succ]
    rfl

/-- At the last reading of all counters, only the present address is left. -/
theorem remaining_done {ls : List (Level α)} (done : Done ls) (undo p : α) :
    remaining ls undo p = [p] := by
  induction ls generalizing undo p with
  | nil => rfl
  | cons l outer ih =>
    have last : l.idx = l.bound := done l (by simp)
    have above : Done outer := fun k member => done k (List.mem_cons_of_mem l member)
    rw [remaining, ih above, last, Nat.sub_self, Nat.zero_add, sweep_one]
    rfl

/-- **One step.**  The present address is followed by what remains after the
counters have advanced and the pointer has moved by the selected stride. -/
theorem remaining_advance {ls : List (Level α)} (within : ∀ l ∈ ls, l.idx ≤ l.bound)
    (running : ¬Done ls) (undo p : α) :
    ∃ s, selected ls = some s ∧
      remaining ls undo p = p :: remaining (advance ls) undo (p + (s + undo)) := by
  induction ls generalizing undo p with
  | nil => exact absurd (fun _ member => by simp at member) running
  | cons l outer ih =>
    have here : l.idx ≤ l.bound := within l (by simp)
    by_cases last : Last l
    · -- the level wraps: the step is one of the outer levels
      have above : ¬Done outer := fun done => running (by
        intro k member
        rcases List.mem_cons.mp member with rfl | member
        · exact last
        · exact done k member)
      obtain ⟨s, stride, rest⟩ := ih (fun k member => within k (List.mem_cons_of_mem l member))
        above (undo + l.bound • (l.stride + undo)) (p - l.bound • (l.stride + undo))
      refine ⟨s, selected_cons_last last stride, ?_⟩
      have target : p - l.bound • (l.stride + undo) +
          (s + (undo + l.bound • (l.stride + undo))) = p + (s + undo) := by abel
      rw [target] at rest
      have bound : l.idx = l.bound := last
      rw [remaining, advance, if_pos last, remaining, bound, rest, Nat.sub_self, Nat.zero_add,
        sweep_one, List.tail_cons, remaining_head (advance outer), List.flatMap_cons]
      simp only [Nat.sub_zero, zero_nsmul, sub_zero, List.cons_append, List.nil_append]
    · -- the level moves on: the outer levels stand
      refine ⟨l.stride, selected_cons_free last outer, ?_⟩
      have room : l.idx < l.bound := Nat.lt_of_le_of_ne here last
      have count : l.bound - l.idx = l.bound - (l.idx + 1) + 1 := by omega
      have base : p + (l.stride + undo) - (l.idx + 1) • (l.stride + undo) =
          p - l.idx • (l.stride + undo) := by
        rw [add_nsmul, one_nsmul]
        abel
      rw [remaining, advance, if_neg last, remaining, base, sweep_succ, List.cons_append, count]

/-! ## From fresh counters -/

/-- The absolute loops of a chain of levels, innermost first. -/
def loops : List (Level α) → α → List (Nat × α)
  | [], _ => []
  | l :: outer, undo =>
    (l.bound + 1, l.stride + undo) :: loops outer (undo + l.bound • (l.stride + undo))

/-- **From fresh counters, the addresses to come are the loop nest.** -/
theorem remaining_fresh {ls : List (Level α)} (fresh : ∀ l ∈ ls, l.idx = 0) (undo p : α) :
    remaining ls undo p = nest (loops ls undo).reverse p := by
  induction ls generalizing undo p with
  | nil => rfl
  | cons l outer ih =>
    have zero : l.idx = 0 := fresh l (by simp)
    have above := ih fun k member => fresh k (List.mem_cons_of_mem l member)
    rw [loops, List.reverse_cons, nest_concat, ← above, remaining,
      remaining_head outer (undo + l.bound • (l.stride + undo)) p, List.flatMap_cons]
    simp only [zero, zero_nsmul, sub_zero, Nat.sub_zero]

theorem map_fst_loops (ls : List (Level α)) (undo : α) :
    (loops ls undo).map Prod.fst = ls.map fun l => l.bound + 1 := by
  induction ls generalizing undo with
  | nil => rfl
  | cons l outer ih => rw [loops, List.map_cons, List.map_cons, ih]

theorem length_remaining_fresh {ls : List (Level α)} (fresh : ∀ l ∈ ls, l.idx = 0) (undo p : α) :
    (remaining ls undo p).length = (ls.map fun l => l.bound + 1).prod := by
  rw [remaining_fresh fresh, length_nest, List.map_reverse, List.prod_reverse, map_fst_loops]

theorem loops_append (inner outer : List (Level α)) (undo : α) :
    ∃ undo', loops (inner ++ outer) undo = loops inner undo ++ loops outer undo' := by
  induction inner generalizing undo with
  | nil => exact ⟨undo, rfl⟩
  | cons l inner ih =>
    obtain ⟨undo', rest⟩ := ih (undo + l.bound • (l.stride + undo))
    exact ⟨undo', by rw [List.cons_append, loops, rest]; rfl⟩

theorem loops_once {ls : List (Level α)} (once : ∀ l ∈ ls, l.bound = 0) (undo : α) :
    ∀ loop ∈ loops ls undo, loop.1 = 1 := by
  induction ls generalizing undo with
  | nil => simp [loops]
  | cons l outer ih =>
    rw [loops, List.forall_mem_cons]
    exact ⟨by rw [once l (by simp)],
      ih (fun k member => once k (List.mem_cons_of_mem l member)) _⟩

/-! ## Strides as differences -/

/-- The levels that walk the given loops, innermost first: each stride has the
distance `walked` by the loops inside subtracted. -/
def encode : List (Nat × α) → α → List (Level α)
  | [], _ => []
  | (count, stride) :: outer, walked =>
    ⟨0, count - 1, stride - walked⟩ :: encode outer (walked + (count - 1) • stride)

@[simp] theorem length_encode (ls : List (Nat × α)) (walked : α) :
    (encode ls walked).length = ls.length := by
  induction ls generalizing walked with
  | nil => rfl
  | cons loop outer ih => rw [encode, List.length_cons, List.length_cons, ih]

/-- Differences undo exactly what they subtract. -/
theorem loops_encode (ls : List (Nat × α)) (positive : ∀ loop ∈ ls, 1 ≤ loop.1) (walked : α) :
    loops (encode ls walked) walked = ls := by
  induction ls generalizing walked with
  | nil => rfl
  | cons loop outer ih =>
    obtain ⟨count, stride⟩ := loop
    have one : 1 ≤ count := positive (count, stride) (by simp)
    have above := ih (fun k member => positive k (List.mem_cons_of_mem _ member))
      (walked + (count - 1) • stride)
    rw [encode, loops]
    simp only [sub_add_cancel, above, Nat.sub_add_cancel one]

end Odometer

end SnitchCluster.Theory
