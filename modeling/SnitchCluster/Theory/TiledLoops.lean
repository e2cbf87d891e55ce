/-
# Theory.TiledLoops -- tile loops with two buffers

The data mover and the workers of a team run the same loop over the items, each with registers of
its own.  In an iteration the mover loads the item, meets the others at a barrier and stores what
they computed in the iteration before; the workers meet the mover and compute.  After the loop
the mover stores what is left.

Between barriers these loops are a pipeline (`mover_phase`, `worker_phase`).  Teams that each run
such loops, and touch of what is ever written only their own, leave what their pipelines leave,
item by item (`memory_team`).
-/
import SnitchCluster.Theory.Teams

namespace SnitchCluster.Theory.Supersteps

open Loops

universe u v w

/-! ## Code between barriers -/

/-- An action or a barrier. -/
inductive Instr (A : Type u)
  | act (a : A)
  | barrier

section Phases

variable {A : Type u}

/-- What stands between barrier `p` and the next. -/
def phaseCode : List (Instr A) → Nat → List A
  | [], _ => []
  | .barrier :: _, 0 => []
  | .barrier :: is, p + 1 => phaseCode is p
  | .act a :: is, 0 => a :: phaseCode is 0
  | .act _ :: is, p + 1 => phaseCode is (p + 1)

variable {as : List A} {is : List (Instr A)}

@[simp] theorem phaseCode_nil (p : Nat) : phaseCode ([] : List (Instr A)) p = [] := by
  cases p <;> rfl

@[simp] theorem phaseCode_barrier_zero : phaseCode (.barrier :: is) 0 = [] := rfl

@[simp] theorem phaseCode_barrier_succ (p : Nat) :
    phaseCode (.barrier :: is) (p + 1) = phaseCode is p := rfl

@[simp] theorem phaseCode_acts_zero :
    phaseCode (as.map .act ++ is) 0 = as ++ phaseCode is 0 := by
  induction as with
  | nil => rfl
  | cons a as ih => exact congrArg (a :: ·) ih

@[simp] theorem phaseCode_acts_succ (p : Nat) :
    phaseCode (as.map .act ++ is) (p + 1) = phaseCode is (p + 1) := by
  induction as with
  | nil => rfl
  | cons a as ih => exact ih

@[simp] theorem phaseCode_acts (p : Nat) :
    phaseCode (as.map .act) p = if p = 0 then as else [] := by
  have all := List.append_nil (as.map (.act : A → Instr A))
  cases p with
  | zero => rw [← all, phaseCode_acts_zero, phaseCode_nil, List.append_nil, if_pos rfl]
  | succ p => rw [← all, phaseCode_acts_succ, phaseCode_nil, if_neg (Nat.succ_ne_zero p)]

end Phases

/-! ## The loops -/

/-- What an iteration does with an item, by the registers of the agent. -/
structure TiledLoop (A : Type u) (R : Type v) (I : Type w) where
  load : R → I → List A
  compute : Nat → R → I → List A
  store : R → List A
  next : R → I → R
  /-- In the first iteration there is nothing to store. -/
  first : I → Bool

namespace TiledLoop

variable {A : Type u} {R : Type v} {I : Type w} (tl : TiledLoop A R I)

/-- The mover, from an iteration on. -/
def mover : List I → R → List (Instr A)
  | [], r => .barrier :: (tl.store r).map .act
  | i :: is, r =>
    (tl.load r i).map .act ++ .barrier ::
      ((if !tl.first i then tl.store r else []).map .act ++ mover is (tl.next r i))

/-- A worker, from an iteration on. -/
def worker (core : Nat) : List I → R → List (Instr A)
  | [], _ => [.barrier]
  | i :: is, r => .barrier :: ((tl.compute core r i).map .act ++ worker core is (tl.next r i))

/-- The registers before iteration `t`. -/
def regsAt (items : List I) (r : R) (t : Nat) : R := (items.take t).foldl tl.next r

/-- The stages of item `t`; agent 0 is the mover and starts with `r 0`. -/
def pipeline (items : List I) (r : Nat → R) (workers : Nat) : Pipeline A where
  count := items.length
  workers := workers
  load t := (items[t]?.map (tl.load (tl.regsAt items (r 0) t))).getD []
  compute t core := (items[t]?.map (tl.compute core (tl.regsAt items (r (core + 1)) t))).getD []
  store t := tl.store (tl.regsAt items (r 0) (t + 1))
  storeFirst := true

variable {tl} {items : List I} {i : I} {r : R} {t : Nat}

@[simp] theorem regsAt_zero : tl.regsAt items r 0 = r := rfl

theorem regsAt_succ (here : items[t]? = some i) :
    tl.regsAt items r (t + 1) = tl.next (tl.regsAt items r t) i := by
  rw [regsAt, List.take_add_one, here, List.foldl_append]
  rfl

theorem drop_eq (here : items[t]? = some i) : items.drop t = i :: items.drop (t + 1) := by
  obtain ⟨inside, rfl⟩ := List.getElem?_eq_some_iff.mp here
  exact List.drop_eq_getElem_cons inside

variable (tl items r) in
/-- What is stored between barriers `t` and `t + 1`: the item before. -/
def storeAt (t : Nat) : List A :=
  if t = 0 ∨ items.length < t then [] else tl.store (tl.regsAt items r t)

variable (tl items r) in
/-- What is loaded before barrier `t`. -/
def loadAt (t : Nat) : List A := (items[t]?.map (tl.load (tl.regsAt items r t))).getD []

variable (tl items r) in
theorem mover_phase_zero (t : Nat) :
    phaseCode (tl.mover (items.drop t) (tl.regsAt items r t)) 0 = tl.loadAt items r t := by
  unfold loadAt
  cases here : items[t]? with
  | some i => simp [drop_eq here, mover]
  | none => simp [List.drop_eq_nil_of_le (List.getElem?_eq_none_iff.mp here), mover]

/-- **The mover between barriers**: it stores the item before last and loads the next. -/
theorem mover_phase (first : ∀ t, ∀ i ∈ items[t]?, tl.first i = true ↔ t = 0) (some : items ≠ [])
    (p : Nat) : ∀ t ≤ items.length,
      phaseCode (tl.mover (items.drop t) (tl.regsAt items r t)) (p + 1) =
        tl.storeAt items r (t + p) ++ tl.loadAt items r (t + p + 1) := by
  induction p with
  | zero =>
    intro t le
    cases here : items[t]? with
    | some i =>
      have inside := (List.getElem?_eq_some_iff.mp here).1
      have rest := mover_phase_zero tl items r (t + 1)
      rw [regsAt_succ here] at rest
      have initial := first t i here
      simp only [drop_eq here, mover, phaseCode_acts_succ, phaseCode_barrier_succ,
        phaseCode_acts_zero, rest, storeAt, Nat.add_zero]
      refine congrArg (· ++ _) ?_
      by_cases zero : t = 0
      · simp [zero, initial.mpr zero]
      · have later : tl.first i = false := by
          simpa using fun is_first => zero (initial.mp is_first)
        simp [zero, later, Nat.not_lt_of_lt inside]
    | none =>
      obtain rfl : t = items.length := by
        have past := List.getElem?_eq_none_iff.mp here
        omega
      simp [mover, storeAt, loadAt, some]
  | succ p ih =>
    intro t le
    cases here : items[t]? with
    | some i =>
      have rest := ih (t + 1) (List.getElem?_eq_some_iff.mp here).1
      rw [regsAt_succ here] at rest
      rw [drop_eq here, mover, phaseCode_acts_succ, phaseCode_barrier_succ,
        phaseCode_acts_succ, rest, Nat.add_right_comm t 1 p, Nat.add_assoc t p 1]
    | none =>
      have past := List.getElem?_eq_none_iff.mp here
      rw [List.drop_eq_nil_of_le past, mover, phaseCode_barrier_succ, phaseCode_acts,
        if_neg (Nat.succ_ne_zero p), storeAt, if_pos (.inr (by omega)), loadAt,
        List.getElem?_eq_none (by omega)]
      rfl

/-- **A worker between barriers** computes the item of the iteration. -/
theorem worker_phase (core p : Nat) : ∀ t ≤ items.length,
    phaseCode (tl.worker core (items.drop t) (tl.regsAt items r t)) p =
      match p with
      | 0 => []
      | p + 1 => (items[t + p]?.map (tl.compute core (tl.regsAt items r (t + p)))).getD [] := by
  induction p with
  | zero =>
    intro t _
    cases items.drop t <;> rfl
  | succ p ih =>
    intro t le
    cases here : items[t]? with
    | some i =>
      have rest := ih (t + 1) (List.getElem?_eq_some_iff.mp here).1
      rw [regsAt_succ here] at rest
      rw [drop_eq here, worker, phaseCode_barrier_succ]
      cases p with
      | zero => simp [rest, here]
      | succ p =>
        rw [phaseCode_acts_succ, rest]
        simp only [Nat.add_right_comm t 1 p, Nat.add_assoc t p 1]
    | none =>
      have past := List.getElem?_eq_none_iff.mp here
      rw [List.drop_eq_nil_of_le past, worker, phaseCode_barrier_succ, phaseCode_nil]
      simp [past, Nat.le_add_right_of_le]

/-- An agent of a team: the mover, or the worker before its number. -/
def agent (tl : TiledLoop A R I) (items : List I) (r : Nat → R) : Nat → List (Instr A)
  | 0 => tl.mover items (r 0)
  | core + 1 => tl.worker core items (r (core + 1))

section

variable {r : Nat → R} (first : ∀ t, ∀ i ∈ items[t]?, tl.first i = true ↔ t = 0) (some : items ≠ [])

include first some

/-- **The loops of a team are a pipeline.** -/
theorem agent_phase (workers : Nat) {p : Nat} (inside : p < items.length + 2) (j : Nat) :
    phaseCode (tl.agent items r j) p = (tl.pipeline items r workers).program.code p j := by
  cases j with
  | zero =>
    change phaseCode (tl.mover (items.drop 0) (tl.regsAt items (r 0) 0)) p =
      (tl.pipeline items r workers).mover p
    have load : ∀ t, tl.loadAt items (r 0) t = if t < (tl.pipeline items r workers).count then
        (tl.pipeline items r workers).load t else [] := by
      intro t
      split
      · rfl
      · next past => simp [loadAt, List.getElem?_eq_none (Nat.le_of_not_lt past)]
    cases p with
    | zero =>
      rw [mover_phase_zero, load, Pipeline.mover, if_neg (Nat.not_lt_zero 1)]
      rfl
    | succ p =>
      rw [mover_phase first some p 0 (Nat.zero_le _), Pipeline.mover, load]
      simp only [Nat.zero_add]
      refine congrArg (· ++ _) ?_
      cases p with
      | zero => simp [storeAt]
      | succ p =>
        rw [storeAt, if_neg (by omega), if_pos (by omega)]
        rfl
  | succ core =>
    change phaseCode (tl.worker core (items.drop 0) (tl.regsAt items (r (core + 1)) 0)) p =
      (tl.pipeline items r workers).worker p core
    rw [worker_phase core p 0 (Nat.zero_le _), Pipeline.worker]
    cases p with
    | zero => rfl
    | succ p =>
      simp only [Nat.zero_add, Nat.zero_lt_succ, true_and, Nat.succ_lt_succ_iff]
      split
      · rfl
      · next past => simp [List.getElem?_eq_none (Nat.le_of_not_lt past)]

theorem agent_phase_past {p : Nat} (past : items.length + 2 ≤ p) (j : Nat) :
    phaseCode (tl.agent items r j) p = [] := by
  obtain ⟨p, rfl⟩ : ∃ q, p = q + 1 := ⟨p - 1, by omega⟩
  cases j with
  | zero =>
    change phaseCode (tl.mover (items.drop 0) (tl.regsAt items (r 0) 0)) (p + 1) = []
    rw [mover_phase first some p 0 (Nat.zero_le _), storeAt, if_pos (.inr (by omega)), loadAt,
      List.getElem?_eq_none (by omega)]
    rfl
  | succ core =>
    change phaseCode (tl.worker core (items.drop 0) (tl.regsAt items (r (core + 1)) 0))
      (p + 1) = []
    rw [worker_phase core (p + 1) 0 (Nat.zero_le _)]
    simp only [Nat.zero_add, List.getElem?_eq_none (show items.length ≤ p by omega)]
    rfl

end

/-- Without an item, only what is in the registers is stored. -/
theorem agent_idle (r : Nat → R) (p j : Nat) :
    phaseCode (tl.agent [] r j) p = if p = 1 ∧ j = 0 then tl.store (r 0) else [] := by
  cases j with
  | zero => cases p <;> simp [agent, mover]
  | succ core => cases p <;> simp [agent, worker]

end TiledLoop

/-! ## Teams of such agents -/

section Teams

variable {A : Type u} {Loc : Type w} {Val : Type w} (S : Semantics A Loc Val)

/-- `count` teams of a mover and `workers` workers, each with barriers of its own. -/
def teams (count workers length : Nat) (code : Nat → Nat → List (Instr A)) : Program Nat A where
  agents := count * (workers + 1)
  schedule := List.range length
  code p i := phaseCode (code (i / (workers + 1)) (i % (workers + 1))) p
  waits _ i j := i / (workers + 1) == j / (workers + 1)

/-- Each team is a pipeline, and touches of what is ever written only its own. -/
structure Piped (count workers length : Nat) (code : Nat → Nat → List (Instr A))
    (pl : Nat → Pipeline A) (owner : Loc → Option Nat) : Prop where
  workers : ∀ c < count, (pl c).workers = workers
  length : ∀ c < count, (pl c).count + 2 ≤ length
  apart : ∀ c < count, (pl c).Apart S
  phases : ∀ c < count, ∀ p < (pl c).count + 2, ∀ j,
    phaseCode (code c j) p = (pl c).program.code p j
  past : ∀ c < count, ∀ p, (pl c).count + 2 ≤ p → ∀ j, phaseCode (code c j) p = []
  writes : ∀ c < count, ∀ t < (pl c).count, ∀ a ∈ (pl c).item t, ∀ x, S.writes a x →
    owner x = some c
  reads : ∀ c < count, ∀ t < (pl c).count, ∀ a ∈ (pl c).item t, ∀ x, S.reads a x →
    ∀ c', owner x = some c' → c' = c

variable {S} {count workers length : Nat} {code : Nat → Nat → List (Instr A)}
  {pl : Nat → Pipeline A} {owner : Loc → Option Nat} {m : Loc → Val} {s : State Loc Val}
  {c i j p : Nat} {a : A} {x : Loc}

theorem agent_team (agent : i < count * (workers + 1)) :
    i / (workers + 1) < count ∧ i % (workers + 1) < workers + 1 :=
  ⟨Nat.div_lt_of_lt_mul (Nat.mul_comm count _ ▸ agent), Nat.mod_lt i (Nat.succ_pos workers)⟩

namespace Piped

section

variable (piped : Piped S count workers length code pl owner)

include piped

theorem code_eq (here : c < count) (inside : p < (pl c).count + 2) (member : j < workers + 1) :
    (teams count workers length code).code p (c * (workers + 1) + j) = (pl c).program.code p j := by
  change phaseCode (code ((c * (workers + 1) + j) / (workers + 1))
    ((c * (workers + 1) + j) % (workers + 1))) p = _
  rw [grid_div member, grid_mod member]
  exact piped.phases c here p inside j

/-- What an agent does is part of some item of its team. -/
theorem mem_item (agent : i < count * (workers + 1))
    (member : a ∈ (teams count workers length code).code p i) :
    p < (pl (i / (workers + 1))).count + 2 ∧
      a ∈ (pl (i / (workers + 1))).program.code p (i % (workers + 1)) ∧
        ∃ t < (pl (i / (workers + 1))).count, a ∈ (pl (i / (workers + 1))).item t := by
  obtain ⟨here, inside⟩ := agent_team agent
  have member : a ∈ phaseCode (code (i / (workers + 1)) (i % (workers + 1))) p := member
  by_cases phase : p < (pl (i / (workers + 1))).count + 2
  · rw [piped.phases _ here p phase] at member
    refine ⟨phase, member, Pipeline.mem_item (List.mem_range.mpr phase) ?_ member⟩
    exact Nat.lt_of_lt_of_eq inside (congrArg (· + 1) (piped.workers _ here).symm)
  · rw [piped.past _ here p (Nat.le_of_not_lt phase)] at member
    cases member

theorem teamed : (teams count workers length code).Teamed S (· / (workers + 1)) owner
      (fun p i x => ∃ a ∈ (teams count workers length code).code p i, S.reads a x)
      fun p i x => ∃ a ∈ (teams count workers length code).code p i, S.writes a x where
  waits _ _ i _ j _ same := beq_iff_eq.mpr same
  within p _ i _ a member := ⟨fun x read => .inl ⟨a, member, read⟩,
    fun x written => ⟨a, member, written⟩⟩
  reads := by
    rintro p _ i agent x ⟨a, member, read⟩
    obtain ⟨-, -, t, inside, part⟩ := piped.mem_item agent member
    exact piped.reads _ (agent_team agent).1 t inside a part x read
  writes := by
    rintro p _ i agent x ⟨a, member, written⟩
    obtain ⟨-, -, t, inside, part⟩ := piped.mem_item agent member
    exact piped.writes _ (agent_team agent).1 t inside a part x written
  apart := by
    rintro p _ i agent j other different same x ⟨a, member, written⟩
    obtain ⟨here, mine⟩ := agent_team agent
    have theirs := (agent_team other).2
    obtain ⟨phase, outer, -⟩ := piped.mem_item agent member
    have distinct : i % (workers + 1) ≠ j % (workers + 1) := fun level => different <| by
      have same : i / (workers + 1) = j / (workers + 1) := same
      rw [← Nat.div_add_mod' i (workers + 1), ← Nat.div_add_mod' j (workers + 1), same, level]
    have size := congrArg (· + 1) (piped.workers _ here)
    have free (b : A) (inner : b ∈ (teams count workers length code).code p j) :
        ¬S.reads b x ∧ ¬S.writes b x := by
      have inner := (piped.mem_item other inner).2.1
      rw [← show i / (workers + 1) = j / (workers + 1) from same] at inner
      exact (piped.apart _ here).raceFree p (List.mem_range.mpr phase) _
        (Nat.lt_of_lt_of_eq mine size.symm) _ (Nat.lt_of_lt_of_eq theirs size.symm) distinct a outer
        b inner x written
    exact ⟨fun ⟨b, inner, read⟩ => (free b inner).1 read,
      fun ⟨b, inner, write⟩ => (free b inner).2 write⟩

/-- **What the phases leave in the words of a team** is what they leave in its pipeline. -/
theorem reference_eq (here : c < count)
    (inside : p ≤ (pl c).count + 2) (mine : ∀ c', owner x = some c' → c' = c) :
    (teams count workers length code).reference S m p x = (pl c).program.reference S m p x := by
  have size : (pl c).program.agents = workers + 1 := congrArg (· + 1) (piped.workers c here)
  refine piped.teamed.reference_team (congrArg (count * ·) size.symm)
    (fun i _ => by rw [size]) here (fun k small => ⟨k, ?_, ?_, fun j member => ?_⟩) x mine
  · have room := piped.length c here
    exact List.getElem?_range (by omega)
  · exact List.getElem?_range (by omega)
  · rw [size]
    exact piped.code_eq here (by omega) (Nat.lt_of_lt_of_eq member size)

/-- **Every run leaves in the words of a team** what its pipeline leaves, item by item. -/
theorem memory_team
    (reached : ((teams count workers length code).machine S).Reachable (Program.start m) s)
    (ended : ∀ i < count * (workers + 1), length ≤ (s.place i).1) (here : c < count)
    (mine : ∀ c', owner x = some c' → c' = c) : s.memory x = (pl c).sequential S m x := by
  have some_agent : 0 < count * (workers + 1) :=
    Nat.mul_pos (Nat.zero_lt_of_lt here) (Nat.succ_pos workers)
  have schedule : (teams count workers length code).schedule.length = length := List.length_range
  rw [piped.teamed.memory_done reached some_agent fun i agent => schedule.le.trans (ended i agent),
    schedule]
  rw [Program.reference_frame (piped.length c here) fun b past _ j other a member written => ?_,
    piped.reference_eq here le_rfl mine, (piped.apart c here).reference_done]
  -- past the end of its pipeline the team does nothing
  obtain ⟨q, phase, inner⟩ := Program.mem_codeAt member
  obtain rfl : q = b := by
    have planned := (List.getElem?_eq_some_iff.mp phase).2
    exact planned.symm.trans (List.getElem_range _)
  have team : j / (workers + 1) = c :=
    mine _ (piped.teamed.writes q (List.mem_of_getElem? phase) j other x ⟨a, inner, written⟩)
  have active := (piped.mem_item other inner).1
  rw [team] at active
  exact Nat.not_lt_of_le past active

/-- **What an agent sees** is what it sees in its pipeline. -/
theorem sees (reached : ((teams count workers length code).machine S).Reachable (Program.start m) s)
    (agent : i < count * (workers + 1))
    (phase : (teams count workers length code).schedule[(s.place i).1]? = some p)
    (action : ((teams count workers length code).code p i)[(s.place i).2]? = some a)
    (read : S.reads a x) : s.memory x = after S.run
      (((pl (i / (workers + 1))).program.code p (i % (workers + 1))).take (s.place i).2)
        ((pl (i / (workers + 1))).program.reference S m p) x := by
  have reaches : ((teams count workers length code).machine S).Reaches
      ((teams count workers length code).Awaits fun _ _ _ => false) (Program.start m) s :=
    reached.mono fun _ _ _ _ _ _ _ _ needed => by cases needed
  obtain ⟨here, inside⟩ := agent_team agent
  have planned := List.mem_of_getElem? phase
  have member := List.mem_of_getElem? action
  have place : (s.place i).1 = p := by
    have planned := (List.getElem?_eq_some_iff.mp phase).2
    exact (List.getElem_range _).symm.trans planned
  have active := (piped.mem_item agent member).1
  have code : (teams count workers length code).code p i =
      (pl (i / (workers + 1))).program.code p (i % (workers + 1)) :=
    piped.phases _ here p active _
  rw [Program.memory_eq piped.teamed.raceFree (piped.teamed.guarded _) reaches agent phase action
    (.inl read), place, code]
  -- what the agent reads is not another team's
  refine after_congr (fun x => ∀ c', owner x = some c' → c' = i / (workers + 1))
    (fun b inner y read => ?_) (fun y mine => piped.reference_eq here active.le mine) x
    (piped.teamed.reads p planned i agent x ⟨a, member, read⟩)
  exact piped.teamed.reads p planned i agent y ⟨b, code ▸ List.mem_of_mem_take inner, read⟩

end

end Piped

end Teams

end SnitchCluster.Theory.Supersteps
