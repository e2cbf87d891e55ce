/-
# Theory.Pipelines -- load, compute and store in overlapping iterations

A pipeline handles its items in three stages.  In an iteration the mover stores item `i - 2` and
loads item `i` while the workers compute item `i - 1`, and all meet at a barrier.

What an iteration overlaps must be `Independent`: then no agent touches what another writes, and
the result is that of the items handled one after the other (`memory_done`).  Two exchanges carry
the proof: the store of an item with the load of the next, and the computation of an item with the
load of the next (`reference_eq`).
-/
import SnitchCluster.Theory.Supersteps

namespace SnitchCluster.Theory.Supersteps

open Loops

universe u v w

/-! ## Actions that can be exchanged -/

section Independent

variable {A : Type u} {Loc : Type v} {Val : Type w}

/-- Neither side writes what the other touches. -/
structure Semantics.Independent (S : Semantics A Loc Val) (as bs : List A) : Prop where
  left : ∀ a ∈ as, ∀ b ∈ bs, ∀ x, S.writes a x → ¬S.reads b x ∧ ¬S.writes b x
  right : ∀ a ∈ as, ∀ b ∈ bs, ∀ x, S.writes b x → ¬S.reads a x ∧ ¬S.writes a x

variable {S : Semantics A Loc Val} {as as' bs : List A} {m : Loc → Val}

namespace Semantics.Independent

theorem symm (apart : S.Independent as bs) : S.Independent bs as :=
  ⟨fun b inner a outer => apart.right a outer b inner,
    fun b inner a outer => apart.left a outer b inner⟩

@[simp] theorem nil_left : S.Independent [] bs := ⟨by simp, by simp⟩

@[simp] theorem nil_right : S.Independent as [] := nil_left.symm

theorem append (apart : S.Independent as bs) (apart' : S.Independent as' bs) :
    S.Independent (as ++ as') bs := by
  constructor
  · intro a member
    exact (List.mem_append.mp member).elim (apart.left a) (apart'.left a)
  · intro a member
    exact (List.mem_append.mp member).elim (apart.right a) (apart'.right a)

theorem flatMap {n : Nat} {f : Nat → List A} (apart : ∀ i < n, S.Independent (f i) bs) :
    S.Independent ((List.range n).flatMap f) bs := by
  constructor
  · intro a member
    obtain ⟨i, small, member⟩ := List.mem_flatMap.mp member
    exact (apart i (List.mem_range.mp small)).left a member
  · intro a member
    obtain ⟨i, small, member⟩ := List.mem_flatMap.mp member
    exact (apart i (List.mem_range.mp small)).right a member

/-- Footprints that do not meet. -/
theorem of_within {R W R' W' : Loc → Prop} (within : S.Within R W as) (within' : S.Within R' W' bs)
    (left : ∀ x, W x → ¬R' x ∧ ¬W' x) (right : ∀ x, W' x → ¬R x ∧ ¬W x) : S.Independent as bs := by
  constructor
  · intro a outer b inner x written
    obtain ⟨unread, unwritten⟩ := left x ((within a outer).2 x written)
    exact ⟨fun read => ((within' b inner).1 x read).elim unread unwritten,
      fun written' => unwritten ((within' b inner).2 x written')⟩
  · intro a outer b inner x written
    obtain ⟨unread, unwritten⟩ := right x ((within' b inner).2 x written)
    exact ⟨fun read => ((within a outer).1 x read).elim unread unwritten,
      fun written' => unwritten ((within a outer).2 x written')⟩

/-- What the second side keeps, it does not change for the first. -/
theorem after_kept (apart : S.Independent as bs) {x : Loc} (kept : ∀ b ∈ bs, ¬S.writes b x) :
    after S.run bs (after S.run as m) x = after S.run as (after S.run bs m) x := by
  rw [after_frame kept]
  refine after_congr (fun x => ∀ b ∈ bs, ¬S.writes b x) ?_ (fun y kept => ?_) x kept
  · exact fun a outer y read b inner written => (apart.right a outer b inner y written).1 read
  · exact (after_frame kept).symm

/-- **Independent actions can be exchanged.** -/
theorem after_comm (apart : S.Independent as bs) (m : Loc → Val) :
    after S.run bs (after S.run as m) = after S.run as (after S.run bs m) := by
  funext x
  by_cases kept : ∀ b ∈ bs, ¬S.writes b x
  · exact apart.after_kept kept
  · simp only [not_forall, not_not] at kept
    obtain ⟨b, inner, written⟩ := kept
    exact (apart.symm.after_kept fun a outer => (apart.right a outer b inner x written).2).symm

end Semantics.Independent

end Independent

/-! ## Programs that agree on their agents -/

/-- What a program says of agents it does not have is no matter. -/
theorem Program.step_congr {P : Type u} {A : Type v} {Loc Val : Type w} {prog prog' : Program P A}
    {S : Semantics A Loc Val} (agents : prog.agents = prog'.agents)
    (schedule : prog.schedule = prog'.schedule)
    (code : ∀ p ∈ prog.schedule, ∀ i < prog.agents, prog.code p i = prog'.code p i)
    (waits : ∀ p, ∀ i < prog.agents, ∀ j < prog.agents, prog.waits p i j = prog'.waits p i j) :
    prog.step S = prog'.step S := by
  have arrived : ∀ (s : State Loc Val) (k : Nat), ∀ j < prog.agents,
      (prog.Arrived s k j ↔ prog'.Arrived s k j) := by
    intro s k j other
    have same : prog.codeAt k j = prog'.codeAt k j := by
      unfold codeAt
      rw [← schedule]
      cases phase : prog.schedule[k]? with
      | none => rfl
      | some p => exact code p (List.mem_of_getElem? phase) j other
    rw [Arrived, Arrived, same]
  funext i s
  unfold step
  rw [← agents, ← schedule]
  split
  · next agent =>
      cases phase : prog.schedule[(s.place i).1]? with
      | none => rfl
      | some p =>
        simp only
        rw [code p (List.mem_of_getElem? phase) i agent]
        cases (prog'.code p i)[(s.place i).2]? with
        | some a => rfl
        | none =>
          have met : (∀ j < prog.agents, prog.waits p i j = true →
              prog.Arrived s (s.place i).1 j) ↔ ∀ j < prog.agents, prog'.waits p i j = true →
                prog'.Arrived s (s.place i).1 j :=
            forall₂_congr fun j other => by rw [waits p i agent j other, arrived s _ j other]
          simp only [met]
  · rfl

/-- What no agent writes, no run changes. -/
theorem Program.reachable_frame {P : Type u} {A : Type v} {Loc Val : Type w} {prog : Program P A}
    {S : Semantics A Loc Val} {m : Loc → Val} {s : State Loc Val} {x : Loc}
    (reached : (prog.machine S).Reachable (start m) s)
    (unwritten : ∀ p ∈ prog.schedule, ∀ i < prog.agents, ∀ a ∈ prog.code p i, ¬S.writes a x) :
    s.memory x = m x := by
  refine reached.invariant (fun s => s.memory x = m x) rfl ?_
  rintro s i t same - taken
  obtain ⟨agent, p, phase, ⟨a, action, rfl⟩ | ⟨-, -, rfl⟩⟩ := prog.step_cases taken
  · have planned := List.mem_of_getElem? phase
    exact (S.frame a s.memory x
      (unwritten p planned i agent a (List.mem_of_getElem? action))).trans same
  · exact same

/-! ## Programs where all wait for all -/

section Barriers

variable {P : Type u} {A : Type v} {Loc : Type w} {Val : Type w} {prog : Program P A}
  {S : Semantics A Loc Val} {m : Loc → Val} {s : State Loc Val} {i j : Nat} {a b : A} {p q : P}

/-- Every phase ends with a barrier. -/
def Program.AllWait (prog : Program P A) : Prop := ∀ p i j, prog.waits p i j = true

theorem Program.AllWait.guarded (all : prog.AllWait) (needs : P → Nat → Nat → Bool) :
    prog.Guarded S needs := by
  intro i agent j other apart k k' earlier conflict
  obtain ⟨a, member, -⟩ := conflict
  obtain ⟨p, phase, -⟩ := Program.mem_codeAt member
  exact .wait le_rfl earlier phase (.inl (all p i j))

/-- **Agents with work left are in one phase.** -/
theorem Program.same_phase (all : prog.AllWait) (free : prog.RaceFree S)
    (reached : (prog.machine S).Reachable (start m) s) (agent : i < prog.agents)
    (other : j < prog.agents) (phase : prog.schedule[(s.place i).1]? = some p)
    (action : (prog.code p i)[(s.place i).2]? = some a)
    (phase' : prog.schedule[(s.place j).1]? = some q)
    (action' : (prog.code q j)[(s.place j).2]? = some b) : (s.place i).1 = (s.place j).1 := by
  have reached : (prog.machine S).Reaches (prog.Awaits fun _ _ _ => false) (start m) s :=
    reached.mono fun _ _ _ _ _ _ _ _ needed => by cases needed
  obtain ⟨-, waited⟩ := prog.reaches_consistent free (all.guarded _) reached
  -- who has entered a later phase finds the other at the end of its own
  have level : ∀ {i j : Nat} {q : P} {b : A}, i < prog.agents → j < prog.agents →
      prog.schedule[(s.place j).1]? = some q → (prog.code q j)[(s.place j).2]? = some b →
      (s.place i).1 ≤ (s.place j).1 := by
    intro i j q b agent other phase action
    by_contra ahead
    have arrived := waited i agent j other _ q phase (Nat.lt_of_not_le ahead) (.inl (all q i j))
    rcases arrived with past | ⟨-, last⟩
    · exact Nat.lt_irrefl _ past
    · have inside := (List.getElem?_eq_some_iff.mp action).1
      rw [prog.codeAt_eq phase] at last
      omega
  exact Nat.le_antisymm (level agent other phase' action') (level other agent phase action)

/-- **No two agents touch a word at once** that one of them writes. -/
theorem Program.no_race (all : prog.AllWait) (free : prog.RaceFree S)
    (reached : (prog.machine S).Reachable (start m) s) (agent : i < prog.agents)
    (other : j < prog.agents) (apart : i ≠ j) (phase : prog.schedule[(s.place i).1]? = some p)
    (action : (prog.code p i)[(s.place i).2]? = some a)
    (phase' : prog.schedule[(s.place j).1]? = some q)
    (action' : (prog.code q j)[(s.place j).2]? = some b) :
    ∀ x, S.writes a x → ¬S.reads b x ∧ ¬S.writes b x := by
  rw [same_phase all free reached agent other phase action phase' action'] at phase
  obtain rfl : q = p := Option.some.inj (phase'.symm.trans phase)
  exact free q (List.mem_of_getElem? phase) i agent j other apart a (List.mem_of_getElem? action) b
    (List.mem_of_getElem? action')

/-- What the phases leave. -/
theorem Program.AllWait.memory_done (all : prog.AllWait) (free : prog.RaceFree S)
    (reached : (prog.machine S).Reachable (start m) s) (some_agent : 0 < prog.agents)
    (ended : ∀ i < prog.agents, prog.schedule.length ≤ (s.place i).1) :
    s.memory = prog.reference S m prog.schedule.length := by
  have reached : (prog.machine S).Reaches (prog.Awaits fun _ _ _ => false) (start m) s :=
    reached.mono fun _ _ _ _ _ _ _ _ needed => by cases needed
  exact Program.memory_done free (all.guarded _) reached some_agent ended

end Barriers

/-! ## Three stages -/

/-- The items, the agents beside the mover, and what each stage does with an item. -/
structure Pipeline (A : Type u) where
  count : Nat
  workers : Nat
  load : Nat → List A
  compute : Nat → Nat → List A
  store : Nat → List A
  /-- In an iteration the mover stores before it loads. -/
  storeFirst : Bool

namespace Pipeline

variable {A : Type u} {Loc : Type w} {Val : Type w} (pl : Pipeline A) (S : Semantics A Loc Val)

def mover (i : Nat) : List A :=
  let out := if 1 < i then pl.store (i - 2) else []
  let inn := if i < pl.count then pl.load i else []
  if pl.storeFirst then out ++ inn else inn ++ out

def worker (i core : Nat) : List A :=
  if 0 < i ∧ i < pl.count + 1 then pl.compute (i - 1) core else []

/-- Agent 0 moves, the others compute. -/
def program : Program Nat A where
  agents := pl.workers + 1
  schedule := List.range (pl.count + 2)
  code i agent := match agent with
    | 0 => pl.mover i
    | core + 1 => pl.worker i core
  waits _ _ _ := true

/-- All workers on an item. -/
def work (t : Nat) : List A := (List.range pl.workers).flatMap (pl.compute t)

/-- An item from its load to its store. -/
def item (t : Nat) : List A := pl.load t ++ pl.work t ++ pl.store t

/-- One item after the other. -/
def sequential : (Loc → Val) → Loc → Val := loop pl.count fun t => after S.run (pl.item t)

/-- What an iteration overlaps is independent. -/
structure Apart : Prop where
  store_load : ∀ t, t + 1 < pl.count → S.Independent (pl.store t) (pl.load (t + 1))
  store_later : pl.storeFirst = false →
    ∀ t, t + 2 < pl.count → S.Independent (pl.store t) (pl.load (t + 2))
  compute_load : ∀ t, t + 1 < pl.count → ∀ core < pl.workers,
    S.Independent (pl.compute t core) (pl.load (t + 1))
  compute_store : ∀ t, t + 1 < pl.count → ∀ core < pl.workers,
    S.Independent (pl.compute (t + 1) core) (pl.store t)
  workers : ∀ t < pl.count, ∀ core < pl.workers, ∀ core' < pl.workers, core ≠ core' →
    S.Independent (pl.compute t core) (pl.compute t core')

variable {pl S} {m : Loc → Val} {s : State Loc Val}

theorem allWait : pl.program.AllWait := fun _ _ _ => rfl

/-- All code is that of some item. -/
theorem mem_item {i agent : Nat} {a : A} (planned : i ∈ pl.program.schedule)
    (inside : agent < pl.program.agents) (member : a ∈ pl.program.code i agent) :
    ∃ t < pl.count, a ∈ pl.item t := by
  have planned := List.mem_range.mp planned
  have load : ∀ t, a ∈ pl.load t → a ∈ pl.item t :=
    fun t here => List.mem_append_left _ (List.mem_append_left _ here)
  have store : ∀ t, a ∈ pl.store t → a ∈ pl.item t := fun t here => List.mem_append_right _ here
  cases agent with
  | zero =>
    have either : a ∈ (if 1 < i then pl.store (i - 2) else []) ∨
        a ∈ if i < pl.count then pl.load i else [] := by
      have member : a ∈ pl.mover i := member
      unfold mover at member
      cases first : pl.storeFirst <;> rw [first] at member
      · exact (List.mem_append.mp member).symm
      · exact List.mem_append.mp member
    rcases either with out | inn
    · split at out
      · exact ⟨i - 2, by omega, store _ out⟩
      · cases out
    · split at inn
      · exact ⟨i, ‹_›, load _ inn⟩
      · cases inn
  | succ core =>
    have member : a ∈ pl.worker i core := member
    unfold worker at member
    split at member
    · refine ⟨i - 1, by omega, List.mem_append_left _ (List.mem_append_right _ ?_)⟩
      have worker := Nat.lt_of_succ_lt_succ inside
      exact List.mem_flatMap.mpr ⟨core, List.mem_range.mpr worker, member⟩
    · cases member

/-- The mover and a worker in one iteration. -/
theorem Apart.mover_worker (apart : pl.Apart S) (i : Nat) {core : Nat}
    (worker : core < pl.workers) :
    S.Independent (pl.mover i) (pl.worker i core) := by
  have out : S.Independent (if 1 < i then pl.store (i - 2) else []) (pl.worker i core) := by
    split
    · next later =>
        unfold Pipeline.worker
        split
        · next inside =>
            obtain ⟨t, rfl⟩ : ∃ t, i = t + 2 := ⟨i - 2, by omega⟩
            exact (apart.compute_store t (by omega) core worker).symm
        · exact .nil_right
    · exact .nil_left
  have inn : S.Independent (if i < pl.count then pl.load i else []) (pl.worker i core) := by
    split
    · next inside =>
        unfold Pipeline.worker
        split
        · next later =>
            obtain ⟨t, rfl⟩ : ∃ t, i = t + 1 := ⟨i - 1, by omega⟩
            exact (apart.compute_load t inside core worker).symm
        · exact .nil_right
    · exact .nil_left
  unfold mover
  cases pl.storeFirst with
  | true => exact out.append inn
  | false => exact inn.append out

/-- **No agent touches what another writes.** -/
theorem Apart.raceFree (apart : pl.Apart S) : pl.program.RaceFree S := by
  intro i _ j agent j' other different a outer b inner x written
  cases j with
  | zero =>
    cases j' with
    | zero => exact absurd rfl different
    | succ core =>
      exact (apart.mover_worker i (Nat.lt_of_succ_lt_succ other)).left a outer b inner x written
  | succ core =>
    have worker : core < pl.workers := Nat.lt_of_succ_lt_succ agent
    cases j' with
    | zero => exact (apart.mover_worker i worker).right b inner a outer x written
    | succ core' =>
      have worker' : core' < pl.workers := Nat.lt_of_succ_lt_succ other
      simp only [program, Pipeline.worker] at outer inner
      split at outer
      · next inside =>
          rw [if_pos inside] at inner
          exact (apart.workers (i - 1) (by omega) core worker core' worker' (by omega)).left
            a outer b inner x written
      · cases outer

/-! ### The order of the stages -/

/-- A stage of an item, nothing past the last. -/
def upto (n : Nat) (stage : Nat → List A) (t : Nat) : List A := if t < n then stage t else []

theorem upto_independent {n : Nat} {f g : Nat → List A} {d : Nat}
    (apart : ∀ t, t + d < n → S.Independent (f t) (g (t + d))) (t : Nat) :
    S.Independent (upto n f t) (upto n g (t + d)) := by
  unfold upto
  by_cases later : t + d < n
  · rw [if_pos later, if_pos (by omega)]
    exact apart t later
  · rw [if_neg later]
    exact .nil_right

/-- The memory before the item that is loaded with the end of iteration `k`. -/
def ahead (pl : Pipeline A) (S : Semantics A Loc Val) (m : Loc → Val) : Nat → Loc → Val
  | 0 => m
  | k + 1 => after S.run (upto pl.count pl.work k) (after S.run (upto pl.count pl.load k)
      (loop k (fun t => after S.run (upto pl.count pl.item t)) m))

theorem phase_eq (i : Nat) (m : Loc → Val) : pl.program.phase S i m =
    after S.run ((List.range pl.workers).flatMap (pl.worker i)) (after S.run (pl.mover i) m) := by
  rw [after_range, Program.phase, show pl.program.agents = 1 + pl.workers from Nat.add_comm _ _,
    loop_append]
  refine loop_congr fun core _ _ => ?_
  rw [Nat.add_comm]
  rfl

theorem workers_succ (k : Nat) :
    (List.range pl.workers).flatMap (pl.worker (k + 1)) = upto pl.count pl.work k := by
  unfold upto
  split
  · next inside =>
      refine List.flatMap_congr fun core _ => ?_
      rw [worker, if_pos ⟨Nat.succ_pos k, Nat.succ_lt_succ inside⟩, Nat.add_sub_cancel]
  · next outside =>
      refine List.flatMap_eq_nil_iff.mpr fun core _ => ?_
      rw [worker, if_neg fun both => outside (Nat.lt_of_succ_lt_succ both.2)]

theorem item_upto (t : Nat) : upto pl.count pl.item t =
    upto pl.count pl.load t ++ upto pl.count pl.work t ++ upto pl.count pl.store t := by
  unfold upto
  split <;> rfl

/-- What the mover does in an iteration after the first two: it may as well load first. -/
theorem Apart.mover (apart : pl.Apart S) {k : Nat} (inside : k < pl.count) (m : Loc → Val) :
    after S.run (pl.mover (k + 2)) m =
      after S.run (upto pl.count pl.load (k + 2)) (after S.run (upto pl.count pl.store k) m) := by
  have out : (if 1 < k + 2 then pl.store (k + 2 - 2) else []) = upto pl.count pl.store k := by
    rw [upto, if_pos (by omega), if_pos inside, Nat.add_sub_cancel]
  have inn : (if k + 2 < pl.count then pl.load (k + 2) else []) =
      upto pl.count pl.load (k + 2) := rfl
  rw [Pipeline.mover, out, inn]
  cases first : pl.storeFirst with
  | true => exact after_append
  | false =>
    refine after_append.trans ?_
    exact ((upto_independent (apart.store_later first) k).after_comm m).symm

/-- **The memory after iteration `k`**: the items before it are handled, the next is computed and
the one after that is loaded. -/
theorem Apart.reference_eq (apart : pl.Apart S) (m : Loc → Val) : ∀ k < pl.count + 2,
    pl.program.reference S m (k + 1) =
      after S.run (upto pl.count pl.load k) (pl.ahead S m k) := by
  have schedule : ∀ k < pl.count + 2, pl.program.schedule[k]? = some k := fun k small => by
    simp [program, small]
  have work_load : ∀ t, S.Independent (upto pl.count pl.work t) (upto pl.count pl.load (t + 1)) :=
    upto_independent fun t inside => .flatMap fun core worker =>
      apart.compute_load t inside core worker
  intro k
  induction k with
  | zero =>
    intro small
    rw [Program.reference_succ (schedule 0 small), phase_eq]
    have none : (List.range pl.workers).flatMap (pl.worker 0) = [] :=
      List.flatMap_eq_nil_iff.mpr fun core _ => by rw [worker, if_neg (by omega)]
    rw [none]
    unfold Pipeline.mover
    cases pl.storeFirst <;> simp [upto, ahead, Program.reference]
  | succ k ih =>
    intro small
    rw [Program.reference_succ (schedule (k + 1) small), ih (by omega), phase_eq, workers_succ]
    cases k with
    | zero =>
      have first : pl.mover 1 = upto pl.count pl.load 1 := by
        unfold Pipeline.mover upto
        cases pl.storeFirst <;> simp
      rw [first, ← (work_load 0).after_comm]
      rfl
    | succ k =>
      rw [apart.mover (by omega), ahead,
        ← (upto_independent apart.store_load k).after_comm, ← (work_load (k + 1)).after_comm,
        ahead, loop_succ, item_upto, after_append, after_append]

theorem Apart.reference_done (apart : pl.Apart S) (m : Loc → Val) :
    pl.program.reference S m (pl.count + 2) = pl.sequential S m := by
  rw [apart.reference_eq m (pl.count + 1) (by omega)]
  have past : ∀ (stage : Nat → List A) t, pl.count ≤ t → upto pl.count stage t = [] :=
    fun stage t beyond => if_neg (Nat.not_lt_of_le beyond)
  rw [past _ _ (Nat.le_succ _), ahead, past _ _ le_rfl, past _ _ le_rfl]
  exact loop_congr fun t inside _ => by rw [upto, if_pos inside]

/-- **A pipeline handles its items one after the other.** -/
theorem Apart.memory_done (apart : pl.Apart S)
    (reached : (pl.program.machine S).Reachable (Program.start m) s)
    (ended : ∀ i < pl.program.agents, pl.program.schedule.length ≤ (s.place i).1) :
    s.memory = pl.sequential S m := by
  have length : pl.program.schedule.length = pl.count + 2 := List.length_range
  rw [allWait.memory_done apart.raceFree reached (Nat.succ_pos _) ended, length,
    apart.reference_done]

/-! ### What is promised of every run -/

/-- Runs from `m` are finite and do not get stuck, in none of them do two agents touch a word at
once that one of them writes, and each ends as if the items were handled one after the other. -/
structure Handles (pl : Pipeline A) (S : Semantics A Loc Val) (m : Loc → Val) : Prop where
  bounded : ∀ schedule s, (pl.program.machine S).run (Program.start m) schedule = some s →
    schedule.length ≤ pl.program.size
  through : ∀ s, (pl.program.machine S).Reachable (Program.start m) s →
    (∀ i, pl.program.step S i s = none) →
      ∀ i < pl.program.agents, pl.program.schedule.length ≤ (s.place i).1
  exclusive : ∀ s, (pl.program.machine S).Reachable (Program.start m) s →
    ∀ i < pl.program.agents, ∀ j < pl.program.agents, i ≠ j →
      ∀ p ∈ pl.program.schedule[(s.place i).1]?, ∀ a ∈ (pl.program.code p i)[(s.place i).2]?,
      ∀ q ∈ pl.program.schedule[(s.place j).1]?, ∀ b ∈ (pl.program.code q j)[(s.place j).2]?,
        ∀ x, S.writes a x → ¬S.reads b x ∧ ¬S.writes b x
  sequential : ∀ s, (pl.program.machine S).Reachable (Program.start m) s →
    (∀ i < pl.program.agents, pl.program.schedule.length ≤ (s.place i).1) →
      s.memory = pl.sequential S m

theorem Apart.handles (apart : pl.Apart S) (m : Loc → Val) : pl.Handles S m where
  bounded _ _ ran := Program.run_length ran
  through _ reached stuck := (Program.fits_of_reachable reached).through stuck
  exclusive _ reached _ agent _ other different _ phase _ action _ phase' _ action' :=
    Program.no_race allWait apart.raceFree reached agent other different phase action phase' action'
  sequential _ reached ended := apart.memory_done reached ended

end Pipeline

end SnitchCluster.Theory.Supersteps
