/-
# Vm.Replacement -- which entry a refill replaces

The eviction pointer of the level-zero buffer wraps when its *next* value is the last index:
with `N` entries it goes through `0` to `N - 2` (`evict_run`), and the last entry is never
filled (`last_unused`).  The buffer holds the last `N - 1` refills (`held_run`), one less than
it has entries for, and from the refill `N - 1` on the entries are not used in turn
(`in_turn_iff`).
-/
import SnitchCluster.Vm.Coherence

namespace SnitchCluster.Core.Tlb

open Theory
open Vm

variable {ppn entries : Nat}

/-! ## Refills -/

/-- The pages refilled in a run, in order. -/
def refilled (t : Tlb ppn entries) : List (TlbPort ppn) → List TlbTag
  | [] => []
  | p :: rest =>
    if t.responds p then ⟨p.va, p.refill4mega⟩ :: refilled (t.next p) rest
    else refilled (t.next p) rest

/-- The buffer after a run. -/
abbrev after (t : Tlb ppn entries) (ins : List (TlbPort ppn)) : Tlb ppn entries :=
  (machine ppn entries).run t ins

theorem refilled_append (t : Tlb ppn entries) (front back : List (TlbPort ppn)) :
    refilled t (front ++ back) = refilled t front ++ refilled (after t front) back := by
  induction front generalizing t with
  | nil => rfl
  | cons p front ih =>
    rw [List.cons_append, refilled, refilled]
    split
    · rw [ih]
      rfl
    · exact ih _

theorem refilled_single (t : Tlb ppn entries) (p : TlbPort ppn) :
    refilled t [p] = if t.responds p then [⟨p.va, p.refill4mega⟩] else [] := rfl

/-- A run has a part with any smaller number of refills. -/
theorem exists_part (t : Tlb ppn entries) (ins : List (TlbPort ppn)) {m : Nat}
    (fewer : m ≤ (refilled t ins).length) :
    ∃ front back, ins = front ++ back ∧ (refilled t front).length = m := by
  induction ins generalizing t m with
  | nil =>
    refine ⟨[], [], rfl, ?_⟩
    simpa [refilled, eq_comm] using fewer
  | cons p rest ih =>
    by_cases none : m = 0
    · exact ⟨[], p :: rest, rfl, none.symm⟩
    · rw [refilled] at fewer
      split at fewer
      · next responds =>
          obtain ⟨front, back, rfl, count⟩ := ih (t.next p) (m := m - 1) (by simp at fewer; omega)
          refine ⟨p :: front, back, rfl, ?_⟩
          rw [refilled, if_pos responds, List.length_cons, count]
          omega
      · next silent =>
          obtain ⟨front, back, rfl, count⟩ := ih (t.next p) fewer
          refine ⟨p :: front, back, rfl, ?_⟩
          rw [refilled, if_neg silent, count]

/-! ## The pointer -/

/-- The next number on a circle. -/
theorem circle_next {d : Nat} (n : Nat) (positive : 0 < d) :
    (n + 1) % d = if n % d + 1 = d then 0 else n % d + 1 := by
  have below := Nat.mod_lt n positive
  rw [Nat.add_mod]
  split
  · next last =>
      by_cases one : d = 1
      · rw [one, Nat.mod_one]
      · rw [Nat.mod_eq_of_lt (show 1 < d by omega), last, Nat.mod_self]
  · next inside =>
      rw [Nat.mod_eq_of_lt (show 1 < d by omega), Nat.mod_eq_of_lt (by omega)]

/-- Two numbers less than a turn apart are at different places. -/
theorem circle_apart {d k n : Nat} (before : k < n) (near : n < k + d) : k % d ≠ n % d := by
  intro same
  obtain ⟨j, rfl⟩ := Nat.exists_eq_add_of_lt before
  have turn : (j + 1) % d = 0 := by
    have shifted : (k + 0) % d = (k + (j + 1)) % d := same
    have turns : 0 % d = (j + 1) % d := Nat.ModEq.add_left_cancel' k shifted
    rw [← turns, Nat.zero_mod]
  rw [Nat.mod_eq_of_lt (by omega)] at turn
  omega

/-! ## The entries -/

theorem next_evict (several : 2 ≤ entries) (t : Tlb ppn entries) (p : TlbPort ppn) :
    (t.next p).evict =
      let bumped := if t.responds p then t.evict + 1 else t.evict
      if bumped = entries - 1 then 0 else bumped :=
  if_pos several

/-- After the refills `rs` the pointer has gone round all indices but the last, whose entry is
out of service, and the last `entries - 1` refills are held. -/
structure Turning (t : Tlb ppn entries) (rs : List TlbTag) : Prop where
  evict : t.evict = rs.length % (entries - 1)
  last : ∀ e : Fin entries, e.val = entries - 1 → t.tagValid e = false
  held : ∀ k r, rs[k]? = some r → rs.length ≤ k + (entries - 1) →
    ∃ e : Fin entries, e.val = k % (entries - 1) ∧ t.tagValid e = true ∧ t.tag e = r

namespace Turning

variable {t : Tlb ppn entries} {rs : List TlbTag} {p : TlbPort ppn}

theorem init : Turning ({} : Tlb ppn entries) [] where
  evict := (Nat.zero_mod _).symm
  last _ _ := rfl
  held _ _ shown := by cases shown

/-- A cycle without a response. -/
theorem silent (several : 2 ≤ entries) (inv : Turning t rs) (kept : p.flush = false)
    (silent : t.responds p = false) : Turning (t.next p) rs := by
  have still (e : Fin entries) : t.fills p e = false := by
    rw [fills, silent, Bool.false_and]
  have below := Nat.mod_lt rs.length (show 0 < entries - 1 by omega)
  refine ⟨?_, fun e last => ?_, fun k r shown recent => ?_⟩
  · rw [next_evict several, silent, inv.evict]
    exact if_neg below.ne
  · rw [next_tagValid, still, kept]
    exact inv.last e last
  · obtain ⟨e, index, valid, tag⟩ := inv.held k r shown recent
    refine ⟨e, index, ?_, ?_⟩
    · rw [next_tagValid, still, kept]
      exact valid
    · rw [next_tag, still]
      exact tag

/-- A refill goes where the pointer is, and the pointer to the next index but the last. -/
theorem refill (several : 2 ≤ entries) (inv : Turning t rs) (kept : p.flush = false)
    (responds : t.responds p = true) :
    Turning (t.next p) (rs ++ [⟨p.va, p.refill4mega⟩]) := by
  have positive : 0 < entries - 1 := by omega
  have below := Nat.mod_lt rs.length positive
  have filled (e : Fin entries) : t.fills p e = (e.val == rs.length % (entries - 1)) := by
    rw [fills, responds, inv.evict, Bool.true_and]
  refine ⟨?_, fun e last => ?_, fun k r shown recent => ?_⟩
  · rw [next_evict several, responds, inv.evict, List.length_append, List.length_singleton,
      circle_next _ positive]
    rfl
  · have elsewhere : (e.val == rs.length % (entries - 1)) = false :=
      beq_false_of_ne (by omega)
    rw [next_tagValid, filled, kept, elsewhere]
    exact inv.last e last
  · rw [List.length_append, List.length_singleton] at recent
    have listed := (List.getElem?_eq_some_iff.mp shown).1
    rw [List.length_append, List.length_singleton] at listed
    by_cases newest : k = rs.length
    · subst newest
      rw [List.getElem?_concat_length, Option.some.injEq] at shown
      have here : (rs.length % (entries - 1) == rs.length % (entries - 1)) = true := beq_self_eq_true _
      refine ⟨⟨rs.length % (entries - 1), by omega⟩, rfl, ?_, ?_⟩
      · rw [next_tagValid, filled, kept, here]
        rfl
      · rw [next_tag, filled, here]
        exact shown
    · have older : k < rs.length := by omega
      rw [List.getElem?_append_left older] at shown
      obtain ⟨e, index, valid, tag⟩ := inv.held k r shown (by omega)
      have apart := circle_apart older (show rs.length < k + (entries - 1) by omega)
      have elsewhere : (e.val == rs.length % (entries - 1)) = false := by
        rw [index]
        exact beq_false_of_ne apart
      refine ⟨e, index, ?_, ?_⟩
      · rw [next_tagValid, filled, kept, elsewhere]
        exact valid
      · rw [next_tag, filled, elsewhere]
        exact tag

end Turning

/-- **A run without flush holds the last `entries - 1` refills.** -/
theorem turning_run (several : 2 ≤ entries) (ins : List (TlbPort ppn))
    (unflushed : ∀ p ∈ ins, p.flush = false) :
    Turning (after ({} : Tlb ppn entries) ins) (refilled ({} : Tlb ppn entries) ins) := by
  induction ins using List.reverseRecOn with
  | nil => exact .init
  | append_singleton ins p ih =>
    have before := ih fun p inside => unflushed p (by simp [inside])
    have kept : p.flush = false := unflushed p (by simp)
    rw [refilled_append, refilled_single, after, Machine.run_append]
    split
    · next responds => exact before.refill several kept responds
    · next silent =>
        rw [List.append_nil]
        exact before.silent several kept (Bool.eq_false_iff.mpr silent)

/-! ## All entries in turn -/

/-- The next refill is due for index `n mod entries` after `n`, and the last `entries` refills
are held and hit. -/
structure InTurn (t : Tlb ppn entries) (rs : List TlbTag) : Prop where
  pointer : t.evict = rs.length % entries
  held : ∀ r ∈ rs.drop (rs.length - entries), ∃ e : Fin entries,
    t.tagValid e = true ∧ t.tag e = r ∧ t.hit r.va e = true

theorem hit_of_tag {t : Tlb ppn entries} {e : Fin entries} (valid : t.tagValid e = true) :
    t.hit (t.tag e).va e = true :=
  hit_iff.mpr ⟨valid, rfl, .inr rfl⟩

/-- **A run uses the entries in turn exactly if it has less than `entries - 1` refills.** -/
theorem in_turn_iff (several : 2 ≤ entries) (ins : List (TlbPort ppn))
    (unflushed : ∀ p ∈ ins, p.flush = false) :
    (∀ front back, ins = front ++ back →
      InTurn (after ({} : Tlb ppn entries) front) (refilled ({} : Tlb ppn entries) front)) ↔
      (refilled ({} : Tlb ppn entries) ins).length < entries - 1 := by
  constructor
  · intro turns
    by_contra! many
    obtain ⟨front, back, rfl, count⟩ := exists_part ({} : Tlb ppn entries) ins many
    have due := (turns front back rfl).pointer
    have place := (turning_run several front fun p inside => unflushed p (by simp [inside])).evict
    rw [place, count, Nat.mod_self, Nat.mod_eq_of_lt (by omega)] at due
    omega
  · rintro few front back rfl
    have inv := turning_run several front fun p inside => unflushed p (by simp [inside])
    rw [refilled_append, List.length_append] at few
    refine ⟨?_, fun r recent => ?_⟩
    · rw [inv.evict, Nat.mod_eq_of_lt (by omega), Nat.mod_eq_of_lt (by omega)]
    · obtain ⟨k, shown⟩ := List.mem_iff_getElem?.mp (List.mem_of_mem_drop recent)
      obtain ⟨e, -, valid, rfl⟩ := inv.held k r shown (by omega)
      exact ⟨e, valid, rfl, hit_of_tag valid⟩

/-! ## Two entries -/

/-- A request for the page `va` that misses, is refilled, and then hits. -/
def refillPage (va : Va) : List (TlbPort 22) :=
  let port (ready : Bool) : TlbPort 22 :=
    { flush := false, privLvl := PrivLvlS, valid := true, va := va, read := true, write := false,
      execute := false, refillReady := ready, refillPte := {}, refill4mega := false }
  [port false, port true, port false]

theorem in_turn_iff_oneRefill :
    (∀ front back, refillPage 7 = front ++ back →
      InTurn (after ({} : Tlb 22 3) front) (refilled ({} : Tlb 22 3) front)) ↔
      (refilled ({} : Tlb 22 3) (refillPage 7)).length < 2 :=
  in_turn_iff (by decide) _ (by decide)

/-- Two entries, two pages: the second refill replaces the first, and entry 1 stays empty. -/
theorem page_displaced :
    (∀ p ∈ refillPage 7 ++ refillPage 8, p.flush = false) ∧
      refilled ({} : Tlb 22 2) (refillPage 7 ++ refillPage 8) = [⟨7, false⟩, ⟨8, false⟩] ∧
      (after ({} : Tlb 22 2) (refillPage 7 ++ refillPage 8)).ready 7 = false ∧
      ¬InTurn (after ({} : Tlb 22 2) (refillPage 7 ++ refillPage 8))
        (refilled ({} : Tlb 22 2) (refillPage 7 ++ refillPage 8)) := by
  have displaced : (after ({} : Tlb 22 2) (refillPage 7 ++ refillPage 8)).ready 7 = false := by
    decide
  refine ⟨by decide, by decide, displaced, fun turn => ?_⟩
  obtain ⟨e, -, -, hit⟩ := turn.held ⟨7, false⟩ (by decide)
  have ready := ready_iff.mpr ⟨e, hit⟩
  rw [displaced] at ready
  cases ready

end SnitchCluster.Core.Tlb
