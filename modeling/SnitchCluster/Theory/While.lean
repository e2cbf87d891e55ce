/-
# Theory.While -- loops that may not end

`whileLoop guard body fuel s` is the state in which a loop ends, if it does so within `fuel`
iterations.  A loop ends if a measure falls (`whileLoop_ends`), and never does if an invariant keeps
its guard up (`whileLoop_diverges`); what its iterations keep holds where it ends
(`whileLoop_invariant`).
-/
import Mathlib.Logic.Basic

namespace SnitchCluster.Theory

universe u

variable {σ : Type u} {guard : σ → Bool} {body : σ → Option σ} {s t : σ} {fuel : Nat}

def whileLoop (guard : σ → Bool) (body : σ → Option σ) : Nat → σ → Option σ
  | 0, _ => none
  | fuel + 1, s => if guard s then (body s).bind (whileLoop guard body fuel) else some s

theorem whileLoop_stop (down : guard s = false) : whileLoop guard body (fuel + 1) s = some s := by
  rw [whileLoop, if_neg (by simp [down])]

theorem whileLoop_step {next : σ} (up : guard s = true) (step : body s = some next) :
    whileLoop guard body (fuel + 1) s = whileLoop guard body fuel next := by
  rw [whileLoop, if_pos up, step, Option.bind_some]

/-- More fuel does no harm. -/
theorem whileLoop_mono {fuel' : Nat} (le : fuel ≤ fuel')
    (ended : whileLoop guard body fuel s = some t) : whileLoop guard body fuel' s = some t := by
  induction fuel generalizing s fuel' with
  | zero => cases ended
  | succ fuel ih =>
    obtain ⟨more, rfl⟩ : ∃ more, fuel' = more + 1 := ⟨fuel' - 1, by omega⟩
    rw [whileLoop] at ended ⊢
    split
    · next up =>
        rw [if_pos up] at ended
        cases step : body s with
        | none => rw [step] at ended; cases ended
        | some next =>
          rw [step] at ended
          exact ih (Nat.le_of_succ_le_succ le) ended
    · next down => rwa [if_neg down] at ended

/-- **What the iterations keep.** -/
theorem whileLoop_invariant (Inv : σ → Prop) (start : Inv s)
    (step : ∀ s t, Inv s → guard s = true → body s = some t → Inv t)
    (ended : whileLoop guard body fuel s = some t) : Inv t ∧ guard t = false := by
  induction fuel generalizing s with
  | zero => cases ended
  | succ fuel ih =>
    rw [whileLoop] at ended
    split at ended
    · next up =>
        cases next : body s with
        | none => rw [next] at ended; cases ended
        | some t' =>
          rw [next] at ended
          exact ih (step s t' start up next) ended
    · next down =>
        cases ended
        exact ⟨start, by simpa using down⟩

variable (guard body) in
/-- **A loop with a measure ends**, within as many iterations. -/
theorem whileLoop_ends (Inv : σ → Prop) (measure : σ → Nat) (start : Inv s)
    (step : ∀ s, Inv s → guard s = true → ∃ t, body s = some t ∧ Inv t ∧ measure t < measure s)
    (enough : measure s < fuel) :
    ∃ t, whileLoop guard body fuel s = some t ∧ Inv t ∧ guard t = false := by
  induction fuel generalizing s with
  | zero => exact absurd enough (Nat.not_lt_zero _)
  | succ fuel ih =>
    cases up : guard s with
    | false => exact ⟨s, whileLoop_stop up, start, up⟩
    | true =>
      obtain ⟨next, taken, kept, smaller⟩ := step s start up
      obtain ⟨t, ended, final⟩ := ih kept (by omega)
      exact ⟨t, (whileLoop_step up taken).trans ended, final⟩

/-- **A loop whose guard stays up does not end.** -/
theorem whileLoop_diverges (Inv : σ → Prop) (start : Inv s) (up : ∀ s, Inv s → guard s = true)
    (step : ∀ s t, Inv s → body s = some t → Inv t) : whileLoop guard body fuel s = none := by
  cases ended : whileLoop guard body fuel s with
  | none => rfl
  | some t =>
    obtain ⟨kept, down⟩ := whileLoop_invariant Inv start (fun s t kept _ => step s t kept) ended
    rw [up t kept] at down
    cases down

end SnitchCluster.Theory
