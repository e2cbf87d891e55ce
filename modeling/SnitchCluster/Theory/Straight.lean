/-
# Theory.Straight -- straight-line code that can get stuck

A list of instructions, each of which takes a state to the next one or gets stuck.  A run gets
through when every instruction does (`run`); unrolled loops get through when every iteration leads
from one state of a given sequence to the next (`run_range`).  `Passes` runs code block by block and
says what holds behind each block.
-/
import Mathlib.Data.List.Flatten
import Mathlib.Data.List.Induction
import Mathlib.Data.List.Range

namespace SnitchCluster.Theory.Straight

universe u v

variable {I : Type u} {σ : Type v} {exec : I → σ → Option σ} {code code' : List I} {s t : σ}

/-- The state behind the code, none if an instruction gets stuck. -/
def run (exec : I → σ → Option σ) : List I → σ → Option σ
  | [], s => some s
  | i :: code, s => (exec i s).bind (run exec code)

@[simp] theorem run_nil : run exec [] s = some s := rfl

theorem run_cons {i : I} (first : exec i s = some t) :
    run exec (i :: code) s = run exec code t := by
  rw [run, first, Option.bind_some]

@[simp] theorem run_append :
    run exec (code ++ code') s = (run exec code s).bind (run exec code') := by
  induction code generalizing s with
  | nil => rfl
  | cons i code ih =>
    cases first : exec i s with
    | none => simp [run, first]
    | some next => simp [run, first, ih]

theorem run_append_of (first : run exec code s = some t) :
    run exec (code ++ code') s = run exec code' t := by
  rw [run_append, first, Option.bind_some]

/-- **An unrolled loop** goes from state to state. -/
theorem run_range {n : Nat} {body : Nat → List I} (S : Nat → σ)
    (each : ∀ i < n, run exec (body i) (S i) = some (S (i + 1))) :
    run exec ((List.range n).flatMap body) (S 0) = some (S n) := by
  induction n with
  | zero => rfl
  | succ n ih =>
    rw [List.range_succ, List.flatMap_append, List.flatMap_singleton,
      run_append_of (ih fun i small => each i (Nat.lt_succ_of_lt small))]
    exact each n (Nat.lt_succ_self n)

/-! ## Block by block -/

/-- The blocks lead from `s` to `t`, and `ok` holds behind each of them. -/
def Passes (exec : I → σ → Option σ) (ok : σ → Prop) : List (List I) → σ → σ → Prop
  | [], s, t => s = t
  | block :: blocks, s, t => ∃ next, run exec block s = some next ∧ ok next ∧
      Passes exec ok blocks next t

variable {ok : σ → Prop} {blocks blocks' : List (List I)}

theorem Passes.append {u : σ} (first : Passes exec ok blocks s t)
    (rest : Passes exec ok blocks' t u) : Passes exec ok (blocks ++ blocks') s u := by
  induction blocks generalizing s with
  | nil =>
    obtain rfl : s = t := first
    exact rest
  | cons block blocks ih =>
    obtain ⟨next, ran, holds, first⟩ := first
    exact ⟨next, ran, holds, ih first⟩

theorem Passes.single {block : List I} (ran : run exec block s = some t) (holds : ok t) :
    Passes exec ok [block] s t :=
  ⟨t, ran, holds, rfl⟩

/-- **A loop of blocks** keeps an invariant that counts its iterations. -/
theorem passes_range {n : Nat} {body : Nat → List (List I)} (Inv : Nat → σ → Prop)
    (each : ∀ i < n, ∀ s, Inv i s → ∃ t, Passes exec ok (body i) s t ∧ Inv (i + 1) t)
    (first : Inv 0 s) : ∃ t, Passes exec ok ((List.range n).flatMap body) s t ∧ Inv n t := by
  induction n with
  | zero => exact ⟨s, rfl, first⟩
  | succ n ih =>
    obtain ⟨t, passes, holds⟩ := ih fun i small => each i (Nat.lt_succ_of_lt small)
    obtain ⟨u, last, holds⟩ := each n (Nat.lt_succ_self n) t holds
    rw [List.range_succ, List.flatMap_append, List.flatMap_singleton]
    exact ⟨u, passes.append last, holds⟩

/-- **A loop of blocks** keeps an invariant of the items that it has been through. -/
theorem passes_items {ι : Type*} {items : List ι} {body : ι → List (List I)}
    (Inv : List ι → σ → Prop)
    (each : ∀ before, ∀ i ∈ items, ∀ s, Inv before s →
      ∃ t, Passes exec ok (body i) s t ∧ Inv (before ++ [i]) t)
    (first : Inv [] s) : ∃ t, Passes exec ok (items.flatMap body) s t ∧ Inv items t := by
  induction items using List.reverseRecOn with
  | nil => exact ⟨s, rfl, first⟩
  | append_singleton before i ih =>
    obtain ⟨t, passes, holds⟩ := ih fun before' j member =>
      each before' j (List.mem_append_left _ member)
    obtain ⟨u, last, holds⟩ := each before i (by simp) t holds
    rw [List.flatMap_append, List.flatMap_singleton]
    exact ⟨u, passes.append last, holds⟩

end SnitchCluster.Theory.Straight
