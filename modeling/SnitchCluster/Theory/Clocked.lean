/-
# Theory.Clocked -- synchronous machines and the runs an environment admits

A clocked machine is a next-state function together with what a cycle shows to
an observer.  Nothing here is about a particular circuit: the inputs of a cycle
are free, and what the environment promises (a handshake is held, a memory
answers in order) is a predicate `Env` on the observations so far, the present
state and the present input.

`Reaches` collects the states such runs arrive at, each with the observations
that lead there, so a statement about every run is a statement about every
reached state.  `Reaches.invariant` is the one induction every such statement
goes through; `reaches_run` turns a concrete list of inputs into a reached
state.
-/
import Mathlib.Order.Monotone.Basic

namespace SnitchCluster.Theory

universe u v w

/-- A synchronous machine: the observation of a cycle and the state after it. -/
structure Machine (State : Type u) (Input : Type v) (Obs : Type w) where
  obs : State → Input → Obs
  next : State → Input → State

/-- What one more cycle adds to a selection of the history. -/
theorem filterMap_concat {α : Type u} {β : Type v} (f : α → Option β) (past : List α) (o : α) :
    (past ++ [o]).filterMap f = past.filterMap f ++ (f o).toList := by
  rw [List.filterMap_append, List.filterMap_cons, List.filterMap_nil]
  cases f o <;> rfl

/-- A selection that shows something in the cycles of a condition. -/
theorem filterMap_shown {α : Type u} {β : Type v} {f : α → Option β} {o : α} {c : Bool} {x : β}
    (shown : f o = if c then some x else none) (past : List α) :
    (past ++ [o]).filterMap f = past.filterMap f ++ if c then [x] else [] := by
  rw [filterMap_concat, shown]
  cases c <;> rfl

namespace Machine

variable {State : Type u} {Input : Type v} {Obs : Type w} (M : Machine State Input Obs)

/-- What an environment admits in a cycle, given everything observed before. -/
abbrev Env (State : Type u) (Input : Type v) (Obs : Type w) : Type (max u v w) :=
  List Obs → State → Input → Prop

/-- `M.Reaches env start past s`: some run from `start`, every cycle of which
`env` admits, shows the observations `past` and ends in `s`. -/
inductive Reaches (env : Env State Input Obs) (start : State) : List Obs → State → Prop
  | start : Reaches env start [] start
  | cycle {past : List Obs} {s : State} {i : Input} (before : Reaches env start past s)
      (admitted : env past s i) : Reaches env start (past ++ [M.obs s i]) (M.next s i)

variable {M}

/-- **The invariant rule.**  What holds at the start and survives every admitted
cycle holds, of the history and the state, wherever a run arrives. -/
theorem Reaches.invariant {env : Env State Input Obs} {start : State}
    (Inv : List Obs → State → Prop) (base : Inv [] start)
    (step : ∀ past s i, M.Reaches env start past s → Inv past s → env past s i →
      Inv (past ++ [M.obs s i]) (M.next s i))
    {past : List Obs} {s : State} (reached : M.Reaches env start past s) : Inv past s := by
  induction reached with
  | start => exact base
  | cycle before admitted ih => exact step _ _ _ before ih admitted

/-- **A part runs inside the whole.**  If the state and the observations of a machine show
those of another, fed with what the first makes of its inputs, then so do its runs. -/
theorem Reaches.component {State' : Type u} {Input' : Type v} {Obs' : Type w}
    {N : Machine State' Input' Obs'} {env : Env State Input Obs} {env' : Env State' Input' Obs'}
    {start : State} (part : State → State') (feed : State → Input → Input') (shown : Obs → Obs')
    (obs : ∀ s i, shown (M.obs s i) = N.obs (part s) (feed s i))
    (next : ∀ s i, part (M.next s i) = N.next (part s) (feed s i))
    (admits : ∀ past s i, env past s i → env' (past.map shown) (part s) (feed s i))
    {past : List Obs} {s : State} (reached : M.Reaches env start past s) :
    N.Reaches env' (part start) (past.map shown) (part s) := by
  induction reached with
  | start => exact .start
  | cycle before admitted ih =>
    rw [List.map_append, List.map_singleton, obs, next]
    exact ih.cycle (admits _ _ _ admitted)

/-- Every run an environment admits, one that admits more along such runs admits. -/
theorem Reaches.mono {env env' : Env State Input Obs} {start : State} {past : List Obs}
    {s : State} (reached : M.Reaches env start past s)
    (admits : ∀ past s i, M.Reaches env start past s → env past s i → env' past s i) :
    M.Reaches env' start past s := by
  induction reached with
  | start => exact .start
  | cycle before admitted ih => exact ih.cycle (admits _ _ _ before admitted)

/-! ## Runs along a list of inputs -/

variable (M)

/-- The state after a list of inputs. -/
def run (s : State) : List Input → State
  | [] => s
  | i :: rest => run (M.next s i) rest

/-- The observations along a list of inputs. -/
def trace (s : State) : List Input → List Obs
  | [] => []
  | i :: rest => M.obs s i :: trace (M.next s i) rest

/-- Every cycle along the inputs is admitted. -/
def Admits (env : Env State Input Obs) (past : List Obs) (s : State) : List Input → Prop
  | [] => True
  | i :: rest => env past s i ∧ Admits env (past ++ [M.obs s i]) (M.next s i) rest

instance decidableAdmits (env : Env State Input Obs)
    [decide : ∀ past s i, Decidable (env past s i)] :
    ∀ past s ins, Decidable (M.Admits env past s ins)
  | _, _, [] => isTrue trivial
  | past, s, i :: rest =>
    @instDecidableAnd _ _ (decide past s i)
      (decidableAdmits env (past ++ [M.obs s i]) (M.next s i) rest)

@[simp] theorem run_nil (s : State) : M.run s [] = s := rfl

@[simp] theorem run_cons (s : State) (i : Input) (rest : List Input) :
    M.run s (i :: rest) = M.run (M.next s i) rest := rfl

@[simp] theorem trace_nil (s : State) : M.trace s [] = [] := rfl

@[simp] theorem trace_cons (s : State) (i : Input) (rest : List Input) :
    M.trace s (i :: rest) = M.obs s i :: M.trace (M.next s i) rest := rfl

theorem run_append (s : State) (front back : List Input) :
    M.run s (front ++ back) = M.run (M.run s front) back := by
  induction front generalizing s with
  | nil => rfl
  | cons i front ih => simp [ih]

/-- What every cycle keeps holds after any inputs. -/
theorem run_keeps (P : State → Prop) (step : ∀ s i, P s → P (M.next s i)) {s : State}
    (base : P s) (ins : List Input) : P (M.run s ins) := by
  induction ins generalizing s with
  | nil => exact base
  | cons i rest ih => exact ih (step s i base)

theorem reaches_run_from {env : Env State Input Obs} {start : State} {past : List Obs}
    {s : State} (reached : M.Reaches env start past s) (ins : List Input)
    (admitted : M.Admits env past s ins) :
    M.Reaches env start (past ++ M.trace s ins) (M.run s ins) := by
  induction ins generalizing past s with
  | nil => simpa using reached
  | cons i rest ih =>
    have arrived := ih (reached.cycle admitted.1) admitted.2
    simpa using arrived

/-- A concrete list of inputs, admitted cycle by cycle, is a run. -/
theorem reaches_run {env : Env State Input Obs} (start : State) (ins : List Input)
    (admitted : M.Admits env [] start ins) :
    M.Reaches env start (M.trace start ins) (M.run start ins) := by
  simpa using M.reaches_run_from .start ins admitted

/-! ## Runs along an endless stream of inputs -/

/-- The state before cycle `n`. -/
def stateAt (s : State) (u : Nat → Input) : Nat → State
  | 0 => s
  | n + 1 => M.next (stateAt s u n) (u n)

/-- The observations of the first `n` cycles. -/
def history (s : State) (u : Nat → Input) : Nat → List Obs
  | 0 => []
  | n + 1 => history s u n ++ [M.obs (M.stateAt s u n) (u n)]

/-- **The progress rule.**  Along an endless run every cycle needs something.  If no
cycle raises a measure, a need stays until the measure falls, and a cycle that gets what
it needs lowers it, as long as a goal is missed, then the goal is met if what is needed
always comes. -/
theorem exists_of_needs {Need : Type u} (goal : Nat → Prop) (measure : Nat → Nat)
    (need : Nat → Need) (kind : Need → Nat → Prop)
    (keeps : ∀ n, (∀ m ≤ n, ¬goal m) → measure (n + 1) ≤ measure n)
    (stays : ∀ n, (∀ m ≤ n, ¬goal m) → measure (n + 1) = measure n → need (n + 1) = need n)
    (lowers : ∀ n, (∀ m ≤ n, ¬goal m) → kind (need n) n → measure (n + 1) < measure n)
    (recurs : ∀ n, ∃ m, n ≤ m ∧ kind (need n) m) : ∃ n, goal n := by
  by_contra never
  have missed : ∀ n, ∀ m ≤ n, ¬goal m := fun _ m _ met => never ⟨m, met⟩
  have falls : Antitone measure := antitone_nat_of_succ_le fun n => keeps n (missed n)
  have waits : ∀ n d, measure (n + d) = measure n → need (n + d) = need n := by
    intro n d
    induction d with
    | zero => intro _; rfl
    | succ d ih =>
      intro level
      have same : measure (n + d + 1) = measure n := level
      have here : measure (n + d + 1) ≤ measure (n + d) := keeps _ (missed _)
      have there : measure (n + d) ≤ measure n := falls (Nat.le_add_right n d)
      have before := ih (by omega)
      rw [← before]
      exact stays (n + d) (missed _) (by omega)
  have sinks : ∀ b, ∃ n, measure n + b ≤ measure 0 := by
    intro b
    induction b with
    | zero => exact ⟨0, Nat.le_refl _⟩
    | succ b ih =>
      obtain ⟨n, below⟩ := ih
      obtain ⟨m, later, here⟩ := recurs n
      have kept : measure m ≤ measure n := falls later
      by_cases level : measure m = measure n
      · have same := waits n (m - n) (by rw [Nat.add_sub_cancel' later, level])
        rw [Nat.add_sub_cancel' later] at same
        have lower := lowers m (missed m) (same ▸ here)
        exact ⟨m + 1, by omega⟩
      · exact ⟨m, by omega⟩
  obtain ⟨n, below⟩ := sinks (measure 0 + 1)
  omega

/-- **The waiting rule.**  What stays until an event, and is led on by the event, is led
on if the event comes. -/
theorem exists_after (waits reached event : Nat → Prop) {n : Nat} (start : waits n)
    (stays : ∀ m, n ≤ m → waits m → ¬event m → waits (m + 1))
    (moves : ∀ m, n ≤ m → waits m → event m → reached (m + 1))
    (comes : ∃ m, n ≤ m ∧ event m) : ∃ m, n ≤ m ∧ reached m := by
  by_contra never
  obtain ⟨m, later, here⟩ := comes
  have upto : ∀ d, waits (n + d) := by
    intro d
    induction d with
    | zero => exact start
    | succ d ih =>
      apply stays _ (Nat.le_add_right n d) ih
      intro now
      exact never ⟨n + d + 1, by omega, moves _ (Nat.le_add_right n d) ih now⟩
  obtain ⟨d, rfl⟩ := Nat.exists_eq_add_of_le later
  exact never ⟨n + d + 1, by omega, moves _ later (upto d) here⟩

/-- The progress rule for one need: cycles of a kind that recurs lower the measure. -/
theorem exists_goal (s : State) (u : Nat → Input) (goal : State → Prop) (kind : Input → Prop)
    (measure : State → Nat)
    (keeps : ∀ n, (∀ m ≤ n, ¬goal (M.stateAt s u m)) →
      measure (M.stateAt s u (n + 1)) ≤ measure (M.stateAt s u n))
    (lowers : ∀ n, (∀ m ≤ n, ¬goal (M.stateAt s u m)) → kind (u n) →
      measure (M.stateAt s u (n + 1)) < measure (M.stateAt s u n))
    (recurs : ∀ n, ∃ m, n ≤ m ∧ kind (u m)) : ∃ n, goal (M.stateAt s u n) :=
  exists_of_needs (fun n => goal (M.stateAt s u n)) (fun n => measure (M.stateAt s u n))
    (fun _ => ()) (fun _ n => kind (u n)) keeps (fun _ _ _ => rfl) lowers recurs

end Machine

end SnitchCluster.Theory
