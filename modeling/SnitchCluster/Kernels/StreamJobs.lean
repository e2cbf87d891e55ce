/-
# Kernels.StreamJobs -- a core and the jobs of its two streams

A core launches jobs on its two streams, one job after the other; an instruction takes the next word
of the streams it names.  A job that is launched while another has words left queues behind it, so
the streams deliver the words of all jobs in order (`executed`), whatever the core meant them for.
-/
import SnitchCluster.Kernels.Variants

namespace SnitchCluster.Kernels.StreamJobs

open Blas Theory.Supersteps

/-! ## Steps -/

section Steps

variable {Loc F : Type}

/-- A statement, by the streams it names. -/
inductive JobStep (Loc F : Type)
  | plain (s : Statement Loc F)
  | ft0 (f : Loc → Statement Loc F)
  | ft1 (f : Loc → Statement Loc F)
  | both (f : Loc → Loc → Statement Loc F)

/-- What a core executes; it waits for ever when a stream is at its end. -/
def executed : List (JobStep Loc F) → List Loc → List Loc → List (Statement Loc F)
  | [], _, _ => []
  | .plain s :: steps, xs, ys => s :: executed steps xs ys
  | .ft0 f :: steps, x :: xs, ys => f x :: executed steps xs ys
  | .ft1 f :: steps, xs, y :: ys => f y :: executed steps xs ys
  | .both f :: steps, x :: xs, y :: ys => f x y :: executed steps xs ys
  | _ :: _, _, _ => []

/-- How many words of `ft0` the steps take. -/
def taken0 : List (JobStep Loc F) → Nat
  | [] => 0
  | .ft0 _ :: steps | .both _ :: steps => taken0 steps + 1
  | .plain _ :: steps | .ft1 _ :: steps => taken0 steps

/-- How many words of `ft1` the steps take. -/
def taken1 : List (JobStep Loc F) → Nat
  | [] => 0
  | .ft1 _ :: steps | .both _ :: steps => taken1 steps + 1
  | .plain _ :: steps | .ft0 _ :: steps => taken1 steps

/-- A step with the words of its streams filled in. -/
inductive JobStep.Becomes (xs ys : List Loc) : JobStep Loc F → Statement Loc F → Prop
  | plain (s : Statement Loc F) : Becomes xs ys (.plain s) s
  | ft0 (f : Loc → Statement Loc F) {x : Loc} (word : x ∈ xs) : Becomes xs ys (.ft0 f) (f x)
  | ft1 (f : Loc → Statement Loc F) {y : Loc} (word : y ∈ ys) : Becomes xs ys (.ft1 f) (f y)
  | both (f : Loc → Loc → Statement Loc F) {x y : Loc} (word : x ∈ xs) (word' : y ∈ ys) :
      Becomes xs ys (.both f) (f x y)

theorem JobStep.Becomes.mono {xs ys xs' ys' : List Loc} {step : JobStep Loc F}
    {s : Statement Loc F} (becomes : step.Becomes xs ys s) (more : ∀ x ∈ xs, x ∈ xs')
    (more' : ∀ y ∈ ys, y ∈ ys') : step.Becomes xs' ys' s := by
  cases becomes with
  | plain s => exact .plain s
  | ft0 f word => exact .ft0 f (more _ word)
  | ft1 f word => exact .ft1 f (more' _ word)
  | both f word word' => exact .both f (more _ word) (more' _ word')

/-- **Whatever is executed is a step with words of its streams.** -/
theorem mem_executed {s : Statement Loc F} {steps : List (JobStep Loc F)} {xs ys : List Loc}
    (member : s ∈ executed steps xs ys) : ∃ step ∈ steps, step.Becomes xs ys s := by
  induction steps generalizing xs ys with
  | nil => simp [executed] at member
  | cons step steps ih =>
    -- the first step, or a later one with the words that are left
    have later {xs' ys' : List Loc} (member : s ∈ executed steps xs' ys')
        (more : ∀ x ∈ xs', x ∈ xs) (more' : ∀ y ∈ ys', y ∈ ys) :
        ∃ step' ∈ step :: steps, step'.Becomes xs ys s := by
      obtain ⟨step', inside, becomes⟩ := ih member
      exact ⟨step', List.mem_cons_of_mem _ inside, becomes.mono more more'⟩
    cases step with
    | plain s' =>
      rcases List.mem_cons.mp member with rfl | member
      · exact ⟨_, List.mem_cons_self, .plain s⟩
      · exact later member (fun _ => id) fun _ => id
    | ft0 f =>
      cases xs with
      | nil => simp [executed] at member
      | cons x xs =>
        rcases List.mem_cons.mp member with rfl | member
        · exact ⟨_, List.mem_cons_self, .ft0 f List.mem_cons_self⟩
        · exact later member (fun _ => List.mem_cons_of_mem _) fun _ => id
    | ft1 f =>
      cases ys with
      | nil => simp [executed] at member
      | cons y ys =>
        rcases List.mem_cons.mp member with rfl | member
        · exact ⟨_, List.mem_cons_self, .ft1 f List.mem_cons_self⟩
        · exact later member (fun _ => id) fun _ => List.mem_cons_of_mem _
    | both f =>
      cases xs with
      | nil => simp [executed] at member
      | cons x xs =>
        cases ys with
        | nil => simp [executed] at member
        | cons y ys =>
          rcases List.mem_cons.mp member with rfl | member
          · exact ⟨_, List.mem_cons_self,
              .both f List.mem_cons_self List.mem_cons_self⟩
          · exact later member (fun _ => List.mem_cons_of_mem _)
              fun _ => List.mem_cons_of_mem _

end Steps

/-! ## Jobs -/

section Jobs

variable {Loc F : Type}

/-- What both streams are launched with, and what the core does until the next launch. -/
structure Job (Loc F : Type) where
  ft0 : List Loc
  ft1 : List Loc
  steps : List (JobStep Loc F)

/-- The core takes all that the job delivers, and no more. -/
structure Job.Consumed (job : Job Loc F) : Prop where
  ft0 : taken0 job.steps = job.ft0.length
  ft1 : taken1 job.steps = job.ft1.length

/-- A core that launches jobs in order. -/
def launched (jobs : List (Job Loc F)) : List (Statement Loc F) :=
  executed (jobs.flatMap Job.steps) (jobs.flatMap Job.ft0) (jobs.flatMap Job.ft1)

theorem mem_launched {s : Statement Loc F} {jobs : List (Job Loc F)} (member : s ∈ launched jobs) :
    ∃ job ∈ jobs, ∃ step ∈ job.steps,
      step.Becomes (jobs.flatMap Job.ft0) (jobs.flatMap Job.ft1) s := by
  obtain ⟨step, inside, becomes⟩ := mem_executed member
  obtain ⟨job, launch, inside⟩ := List.mem_flatMap.mp inside
  exact ⟨job, launch, step, inside, becomes⟩

end Jobs

/-! ## What is written -/

section Targets

variable {Loc F ι : Type} {W : Loc → Prop}

/-- The steps write in `W`, or what the second stream delivers. -/
def Targets (W : Loc → Prop) (steps : List (JobStep Loc F)) : Prop :=
  ∀ step ∈ steps, ∀ xs ys s, step.Becomes xs ys s → ∀ z, s.writes z → W z ∨ z ∈ ys

@[simp] theorem targets_nil : Targets W ([] : List (JobStep Loc F)) := nofun

theorem targets_cons {step : JobStep Loc F} {steps : List (JobStep Loc F)} :
    Targets W (step :: steps) ↔ Targets W [step] ∧ Targets W steps := by
  simp [Targets]

@[simp] theorem targets_append {steps steps' : List (JobStep Loc F)} :
    Targets W (steps ++ steps') ↔ Targets W steps ∧ Targets W steps' := by
  simp only [Targets, List.mem_append, or_imp, forall_and]

@[simp] theorem targets_flatMap {items : List ι} {f : ι → List (JobStep Loc F)} :
    Targets W (items.flatMap f) ↔ ∀ i ∈ items, Targets W (f i) := by
  simp only [Targets, List.mem_flatMap]
  constructor
  · exact fun all i member step inside => all step ⟨i, member, inside⟩
  · rintro all step ⟨i, member, inside⟩
    exact all i member step inside

@[simp] theorem targets_map {items : List ι} {f : ι → JobStep Loc F} :
    Targets W (items.map f) ↔ ∀ i ∈ items, Targets W [f i] := by
  simp [Targets]

theorem targets_plain {s : Statement Loc F} (writes : ∀ z, s.writes z → W z) :
    Targets W [.plain s] := by
  intro step member xs ys s' becomes z written
  obtain rfl := List.mem_singleton.mp member
  cases becomes
  exact .inl (writes z written)

theorem targets_ft0 {f : Loc → Statement Loc F} (writes : ∀ x z, (f x).writes z → W z) :
    Targets W [.ft0 f] := by
  intro step member xs ys s becomes z written
  obtain rfl := List.mem_singleton.mp member
  cases becomes
  exact .inl (writes _ z written)

theorem targets_ft1 {f : Loc → Statement Loc F} (writes : ∀ y z, (f y).writes z → W z ∨ z = y) :
    Targets W [.ft1 f] := by
  intro step member xs ys s becomes z written
  obtain rfl := List.mem_singleton.mp member
  cases becomes with
  | ft1 f word =>
    rcases writes _ z written with inside | rfl
    · exact .inl inside
    · exact .inr word

theorem targets_both {f : Loc → Loc → Statement Loc F}
    (writes : ∀ x y z, (f x y).writes z → W z ∨ z = y) : Targets W [.both f] := by
  intro step member xs ys s becomes z written
  obtain rfl := List.mem_singleton.mp member
  cases becomes with
  | both f _ word =>
    rcases writes _ _ z written with inside | rfl
    · exact .inl inside
    · exact .inr word

/-- **What a core writes** is what its steps write, or what a second stream delivers. -/
theorem launched_writes {jobs : List (Job Loc F)} (targets : ∀ job ∈ jobs, Targets W job.steps)
    {s : Statement Loc F} (member : s ∈ launched jobs) {z : Loc} (written : s.writes z) :
    W z ∨ ∃ job ∈ jobs, z ∈ job.ft1 := by
  obtain ⟨job, launch, step, inside, becomes⟩ := mem_launched member
  rcases targets job launch step inside _ _ s becomes z written with inside | word
  · exact .inl inside
  · exact .inr (List.mem_flatMap.mp word)

end Targets

/-! ## Loops -/

/-- `for (co = first; co < bound; co += step)` -/
def stepped (first bound step : Nat) : List Nat :=
  (List.range ((bound - first + (step - 1)) / step)).map fun q => first + q * step

theorem le_of_mem_stepped {first bound step co : Nat} (member : co ∈ stepped first bound step) :
    first ≤ co := by
  obtain ⟨q, _, rfl⟩ := List.mem_map.mp member
  exact Nat.le_add_right _ _

/-- A stream stays behind its pointer. -/
theorem le_of_mem_streamed {loops : List (Nat × Nat)} {p e : Nat} (member : e ∈ streamed loops p) :
    p ≤ e := by
  induction loops generalizing p with
  | nil => exact (List.mem_singleton.mp member).ge
  | cons loop inner ih =>
    obtain ⟨i, _, member⟩ := List.mem_flatMap.mp member
    exact Nat.le_trans (Nat.le_add_right _ _) (ih member)

end SnitchCluster.Kernels.StreamJobs
