/-
# Theory.Supersteps -- agents that meet at barriers

Agents run through the same phases.  In each phase an agent has a list of actions on a shared
memory; before it goes on it waits for the agents that the phase's barrier names, all of them,
some or none.  Who acts next is free (`Program.machine`).

Two phases of two agents conflict when one writes what the other touches.  If no agents conflict
within a phase (`RaceFree`) and of conflicting phases the earlier is finished before the later
is entered (`Clear`), then what an agent reads is what it would read if the phases ran one after
the other, agent after agent (`memory_eq`), and so is the memory at the end (`memory_done`).
Statements about interleavings become statements about `reference`, and those are proved phase
by phase with `Holds`.

`Clear` comes from barriers: `Guarded` asks that between conflicting phases stands a barrier of
the one agent for the other, directly or through others (`Follows`), or a wait that the runs in
question are known to make (`Awaits`).
-/
import Mathlib.Algebra.Order.BigOperators.Group.Finset
import SnitchCluster.Theory.Interleaving
import SnitchCluster.Theory.Loops

namespace SnitchCluster.Theory.Supersteps

open Loops

universe u v w

/-! ## Checks along a list of steps -/

section Holds

variable {α : Type u} {σ : Type v} (run : α → σ → σ) (Q : α → σ → Prop)

/-- The state after a list of steps. -/
def after : List α → σ → σ
  | [], s => s
  | a :: as, s => after as (run a s)

/-- `Q` holds of each step in the state it starts from. -/
def Holds : List α → σ → Prop
  | [], _ => True
  | a :: as, s => Q a s ∧ Holds as (run a s)

variable {run Q} {as bs : List α} {a : α} {s : σ}

@[simp] theorem after_nil : after run [] s = s := rfl

@[simp] theorem after_cons : after run (a :: as) s = after run as (run a s) := rfl

@[simp] theorem after_append : after run (as ++ bs) s = after run bs (after run as s) := by
  induction as generalizing s with
  | nil => rfl
  | cons a as ih => exact ih

@[simp] theorem holds_nil : Holds run Q [] s := trivial

@[simp] theorem holds_cons : Holds run Q (a :: as) s ↔ Q a s ∧ Holds run Q as (run a s) := Iff.rfl

theorem holds_append :
    Holds run Q (as ++ bs) s ↔ Holds run Q as s ∧ Holds run Q bs (after run as s) := by
  induction as generalizing s with
  | nil => simp
  | cons a as ih => simp [ih, and_assoc]

/-- The check at a position. -/
theorem Holds.at (holds : Holds run Q as s) {n : Nat} (here : as[n]? = some a) :
    Q a (after run (as.take n) s) := by
  induction as generalizing s n with
  | nil => simp at here
  | cons b as ih =>
    cases n with
    | zero =>
      obtain rfl : b = a := by simpa using here
      exact holds.1
    | succ n => exact ih holds.2 (by simpa using here)

/-- **Loops of steps.** -/
theorem holds_range {n : Nat} {f : Nat → List α} (Inv : Nat → σ → Prop) (base : Inv 0 s)
    (step : ∀ i < n, ∀ s, Inv i s → Holds run Q (f i) s ∧ Inv (i + 1) (after run (f i) s)) :
    Holds run Q ((List.range n).flatMap f) s ∧
      Inv n (after run ((List.range n).flatMap f) s) := by
  induction n with
  | zero => exact ⟨trivial, base⟩
  | succ n ih =>
    obtain ⟨so_far, inv⟩ := ih fun i small => step i (Nat.lt_succ_of_lt small)
    obtain ⟨last, inv'⟩ := step n (Nat.lt_succ_self n) _ inv
    rw [List.range_succ, List.flatMap_append, List.flatMap_singleton, holds_append, after_append]
    exact ⟨⟨so_far, last⟩, inv'⟩

/-- An invariant of every step. -/
theorem holds_of_inv (Inv : σ → Prop) (base : Inv s)
    (step : ∀ a ∈ as, ∀ s, Inv s → Q a s ∧ Inv (run a s)) : Holds run Q as s := by
  induction as generalizing s with
  | nil => trivial
  | cons a as ih =>
    obtain ⟨here, inv⟩ := step a List.mem_cons_self s base
    exact ⟨here, ih inv fun b member => step b (List.mem_cons_of_mem a member)⟩

/-- Steps on items, each its own and the others untouched. -/
theorem holds_visit {ι : Type w} {items : List ι} {f : ι → List α} (Inv : σ → Prop)
    (Pre : ι → σ → Prop) (apart : items.Nodup) (inv : Inv s) (pre : ∀ x ∈ items, Pre x s)
    (visit : ∀ x ∈ items, ∀ s, Inv s → Pre x s → Holds run Q (f x) s ∧ Inv (after run (f x) s) ∧
      ∀ y, y ≠ x → Pre y s → Pre y (after run (f x) s)) :
    Holds run Q (items.flatMap f) s := by
  induction items generalizing s with
  | nil => trivial
  | cons x items ih =>
    obtain ⟨fresh, apart⟩ := List.nodup_cons.mp apart
    obtain ⟨here, inv, others⟩ := visit x List.mem_cons_self s inv (pre x List.mem_cons_self)
    rw [List.flatMap_cons, holds_append]
    refine ⟨here, ih apart inv ?_ fun y member => visit y (List.mem_cons_of_mem x member)⟩
    intro y member
    refine others y ?_ (pre y (List.mem_cons_of_mem x member))
    rintro rfl
    exact fresh member

/-- Steps dealt out by a counter are a loop. -/
theorem after_range (n : Nat) (f : Nat → List α) :
    after run ((List.range n).flatMap f) s = loop n (fun i => after run (f i)) s := by
  induction n with
  | zero => rfl
  | succ n ih =>
    rw [List.range_succ, List.flatMap_append, List.flatMap_singleton, after_append, ih, loop_succ]

theorem after_map (n : Nat) (f : Nat → α) :
    after run ((List.range n).map f) s = loop n (fun i => run (f i)) s := by
  induction n with
  | zero => rfl
  | succ n ih =>
    rw [List.range_succ, List.map_append, after_append, ih, loop_succ]
    rfl

theorem after_grid (a b : Nat) (f : Nat → Nat → α) :
    after run ((List.range a).flatMap fun k => (List.range b).map (f k)) s =
      loop a (fun k => loop b fun l => run (f k l)) s := by
  rw [after_range]
  exact loop_congr fun k _ t => after_map b (f k)

/-! Rounds of equal length -/

theorem length_rounds {len n : Nat} {f : Nat → List α} (even : ∀ q, (f q).length = len) :
    ((List.range n).flatMap f).length = n * len := by
  induction n with
  | zero => simp
  | succ n ih => simp [List.range_succ, ih, even, Nat.succ_mul]

theorem getElem?_rounds {len n q r : Nat} {f : Nat → List α} (even : ∀ q, (f q).length = len)
    (round : q < n) (inside : r < len) :
    ((List.range n).flatMap f)[q * len + r]? = (f q)[r]? := by
  induction n with
  | zero => exact absurd round (Nat.not_lt_zero q)
  | succ n ih =>
    have next := Nat.mul_le_mul_right len (Nat.le_of_lt_succ round)
    rw [List.range_succ, List.flatMap_append, List.flatMap_singleton]
    rcases Nat.lt_succ_iff_lt_or_eq.mp round with before | rfl
    · have whole := Nat.mul_le_mul_right len (show q + 1 ≤ n from before)
      rw [Nat.succ_mul] at whole
      rw [List.getElem?_append_left (by rw [length_rounds even]; omega)]
      exact ih before
    · rw [List.getElem?_append_right (by rw [length_rounds even]; omega), length_rounds even,
        Nat.add_sub_cancel_left]

theorem take_rounds {len n q r : Nat} {f : Nat → List α} (even : ∀ q, (f q).length = len)
    (round : q < n) (inside : r ≤ len) :
    ((List.range n).flatMap f).take (q * len + r) = (List.range q).flatMap f ++ (f q).take r := by
  induction n with
  | zero => exact absurd round (Nat.not_lt_zero q)
  | succ n ih =>
    rw [List.range_succ, List.flatMap_append, List.flatMap_singleton]
    rcases Nat.lt_succ_iff_lt_or_eq.mp round with before | rfl
    · have whole := Nat.mul_le_mul_right len (show q + 1 ≤ n from before)
      rw [Nat.succ_mul] at whole
      rw [List.take_append_of_le_length (by rw [length_rounds even]; omega)]
      exact ih before
    · rw [← length_rounds (n := q) even, List.take_length_add_append]

theorem after_invariant (Inv : σ → Prop) (base : Inv s)
    (step : ∀ a ∈ as, ∀ s, Inv s → Inv (run a s)) : Inv (after run as s) := by
  induction as generalizing s with
  | nil => exact base
  | cons a as ih =>
    exact ih (step a List.mem_cons_self s base) fun b member =>
      step b (List.mem_cons_of_mem a member)

end Holds

/-! ## Actions and their footprints -/

/-- What actions do to a memory, and what they look at and change. -/
structure Semantics (A : Type u) (Loc : Type v) (Val : Type w) where
  run : A → (Loc → Val) → Loc → Val
  reads : A → Loc → Prop
  writes : A → Loc → Prop
  frame : ∀ a m x, ¬writes a x → run a m x = m x
  determined : ∀ a m m', (∀ x, reads a x → m x = m' x) → ∀ x, writes a x → run a m x = run a m' x

section Footprints

variable {A : Type u} {Loc : Type v} {Val : Type w} {S : Semantics A Loc Val} {as : List A}
  {m m' : Loc → Val} {x : Loc}

theorem after_frame (untouched : ∀ a ∈ as, ¬S.writes a x) : after S.run as m x = m x :=
  after_invariant (fun t => t x = m x) rfl fun a member t same =>
    (S.frame a t x (untouched a member)).trans same

/-- Actions that read within `D` only depend on the memory there. -/
theorem after_congr (D : Loc → Prop) (within : ∀ a ∈ as, ∀ x, S.reads a x → D x)
    (same : ∀ x, D x → m x = m' x) : ∀ x, D x → after S.run as m x = after S.run as m' x := by
  induction as generalizing m m' with
  | nil => exact same
  | cons a as ih =>
    refine ih (fun b member => within b (List.mem_cons_of_mem a member)) fun x inside => ?_
    by_cases written : S.writes a x
    · exact S.determined a m m' (fun y read => same y (within a List.mem_cons_self y read)) x written
    · rw [S.frame a m x written, S.frame a m' x written]
      exact same x inside

end Footprints

section Within

variable {A : Type u} {Loc : Type v} {Val : Type w} (S : Semantics A Loc Val) (R W : Loc → Prop)

/-- Actions that write within `W` and read within `R` and `W`. -/
def Semantics.Within (as : List A) : Prop :=
  ∀ a ∈ as, (∀ x, S.reads a x → R x ∨ W x) ∧ ∀ x, S.writes a x → W x

variable {S R W} {as bs : List A} {n : Nat} {m : Loc → Val} {x : Loc}

namespace Semantics

@[simp] theorem within_nil : S.Within R W [] := by simp [Within]

@[simp] theorem within_cons {a : A} : S.Within R W (a :: as) ↔
    ((∀ x, S.reads a x → R x ∨ W x) ∧ ∀ x, S.writes a x → W x) ∧ S.Within R W as :=
  List.forall_mem_cons

@[simp] theorem within_append : S.Within R W (as ++ bs) ↔ S.Within R W as ∧ S.Within R W bs :=
  List.forall_mem_append

@[simp] theorem within_flatMap {f : Nat → List A} :
    S.Within R W ((List.range n).flatMap f) ↔ ∀ k < n, S.Within R W (f k) := by
  simp only [Within, List.mem_flatMap, List.mem_range]
  exact ⟨fun all k below a member => all a ⟨k, below, member⟩,
    fun all a ⟨k, below, member⟩ => all k below a member⟩

@[simp] theorem within_map {f : Nat → A} :
    S.Within R W ((List.range n).map f) ↔
      ∀ k < n, (∀ x, S.reads (f k) x → R x ∨ W x) ∧ ∀ x, S.writes (f k) x → W x := by
  simp [Within]

theorem Within.mono {R' W' : Loc → Prop} (within : S.Within R W as) (reads : ∀ x, R x → R' x ∨ W' x)
    (writes : ∀ x, W x → W' x) : S.Within R' W' as := fun a member =>
  ⟨fun x read => ((within a member).1 x read).elim (reads x) fun written => .inr (writes x written),
    fun x written => writes x ((within a member).2 x written)⟩

/-- What the actions do not write. -/
theorem Within.frame (within : S.Within R W as) (outside : ¬W x) : after S.run as m x = m x :=
  after_frame fun a member writes => outside ((within a member).2 x writes)

end Semantics

end Within

/-! ## Statements

An action that carries its own footprint. -/

structure Statement (Loc : Type u) (Val : Type v) where
  run : (Loc → Val) → Loc → Val
  reads : Loc → Prop
  writes : Loc → Prop
  frame : ∀ m x, ¬writes x → run m x = m x
  determined : ∀ m m', (∀ x, reads x → m x = m' x) → ∀ x, writes x → run m x = run m' x

namespace Statement

variable {Loc : Type u} {Val : Type v}

def semantics : Semantics (Statement Loc Val) Loc Val where
  run := run
  reads := reads
  writes := writes
  frame := frame
  determined := determined

@[simp] theorem semantics_run (a : Statement Loc Val) : semantics.run a = a.run := rfl

@[simp] theorem semantics_reads (a : Statement Loc Val) : semantics.reads a = a.reads := rfl

@[simp] theorem semantics_writes (a : Statement Loc Val) : semantics.writes a = a.writes := rfl

abbrev Within (R W : Loc → Prop) (as : List (Statement Loc Val)) : Prop :=
  semantics.Within R W as

theorem Within.frame {R W : Loc → Prop} {as : List (Statement Loc Val)} {m : Loc → Val} {x : Loc}
    (within : Within R W as) (outside : ¬W x) : after run as m x = m x :=
  Semantics.Within.frame within outside

variable [DecidableEq Loc]

/-- `x = f(y, z, w)`. -/
def assign (x y z w : Loc) (f : Val → Val → Val → Val) : Statement Loc Val where
  run m := Function.update m x (f (m y) (m z) (m w))
  reads a := a = y ∨ a = z ∨ a = w
  writes a := a = x
  frame m a other := Function.update_of_ne other _ _
  determined m m' same a here := by
    subst here
    rw [Function.update_self, Function.update_self, same y (.inl rfl), same z (.inr (.inl rfl)),
      same w (.inr (.inr rfl))]

/-- `x[at(index)] = f(x[at(index)], y)`: which element is written depends on the memory. -/
def scatter (x : Nat → Loc) (index y : Loc) (element : Val → Nat) (f : Val → Val → Val) :
    Statement Loc Val where
  run m := Function.update m (x (element (m index))) (f (m (x (element (m index)))) (m y))
  reads a := a = index ∨ a = y ∨ ∃ k, a = x k
  writes a := ∃ k, a = x k
  frame m a other := Function.update_of_ne (fun same => other ⟨_, same⟩) _ _
  determined m m' same a here := by
    have at_index := same index (.inl rfl)
    have at_y := same y (.inr (.inl rfl))
    obtain ⟨k, rfl⟩ := here
    rw [at_index, at_y, same _ (.inr (.inr ⟨element (m' index), rfl⟩))]
    by_cases hit : x k = x (element (m' index))
    · rw [hit, Function.update_self, Function.update_self]
    · rw [Function.update_of_ne hit, Function.update_of_ne hit, same _ (.inr (.inr ⟨k, rfl⟩))]

end Statement

/-! ## Programs in phases -/

/-- `agents` agents, the phases in order, the actions of each agent in each phase and whom an
agent waits for at its end. -/
structure Program (P : Type u) (A : Type v) where
  agents : Nat
  schedule : List P
  code : P → Nat → List A
  waits : P → Nat → Nat → Bool

/-- The memory, and for each agent its phase and how many actions of it are done. -/
structure State (Loc : Type u) (Val : Type v) where
  memory : Loc → Val
  place : Nat → Nat × Nat

namespace Program

variable {P : Type u} {A : Type v} {Loc : Type w} {Val : Type w} (prog : Program P A)
  (S : Semantics A Loc Val)

/-- The actions of an agent in phase number `k`. -/
def codeAt (k i : Nat) : List A :=
  match prog.schedule[k]? with
  | some p => prog.code p i
  | none => []

/-- Agent `j` has finished phase `k`. -/
def Arrived (s : State Loc Val) (k j : Nat) : Prop :=
  k < (s.place j).1 ∨ (s.place j).1 = k ∧ (s.place j).2 = (prog.codeAt k j).length

instance (s : State Loc Val) (k j : Nat) : Decidable (prog.Arrived s k j) := by
  unfold Arrived
  infer_instance

def step (i : Nat) (s : State Loc Val) : Option (State Loc Val) :=
  if i < prog.agents then
    match prog.schedule[(s.place i).1]? with
    | none => none
    | some p =>
      match (prog.code p i)[(s.place i).2]? with
      | some a => some {
          memory := S.run a s.memory
          place := Function.update s.place i ((s.place i).1, (s.place i).2 + 1) }
      | none =>
        if ∀ j < prog.agents, prog.waits p i j = true → prog.Arrived s (s.place i).1 j then
          some { s with place := Function.update s.place i ((s.place i).1 + 1, 0) }
        else none
  else none

def machine : Interleaving (State Loc Val) Nat where
  step := prog.step S

def start (m : Loc → Val) : State Loc Val := ⟨m, fun _ => (0, 0)⟩

/-- An agent leaves a phase after those it needs to have finished it, barrier or not. -/
def Awaits (needs : P → Nat → Nat → Bool) (s : State Loc Val) (i : Nat) : Prop :=
  ∀ p ∈ prog.schedule[(s.place i).1]?, (prog.code p i)[(s.place i).2]? = none →
    ∀ j < prog.agents, needs p i j = true → prog.Arrived s (s.place i).1 j

instance (needs : P → Nat → Nat → Bool) (s : State Loc Val) (i : Nat) :
    Decidable (prog.Awaits needs s i) := by
  have (o : Option A) : Decidable (o = none) := decidable_of_iff _ Option.isNone_iff_eq_none
  unfold Awaits
  infer_instance

/-- Nobody touches in a phase what another agent writes in it. -/
def RaceFree : Prop :=
  ∀ p ∈ prog.schedule, ∀ i < prog.agents, ∀ j < prog.agents, i ≠ j →
    ∀ a ∈ prog.code p i, ∀ b ∈ prog.code p j, ∀ x, S.writes a x → ¬S.reads b x ∧ ¬S.writes b x

/-- An agent in one phase writes what another touches in another phase, or the other way. -/
def Conflict (k i k' j : Nat) : Prop :=
  ∃ a ∈ prog.codeAt k i, ∃ b ∈ prog.codeAt k' j, ∃ x,
    S.writes a x ∧ (S.reads b x ∨ S.writes b x) ∨ (S.reads a x ∨ S.writes a x) ∧ S.writes b x

/-- Whoever has entered a phase finds the earlier phases that conflict with it finished. -/
def Clear (s : State Loc Val) : Prop :=
  ∀ i < prog.agents, ∀ j < prog.agents, i ≠ j → ∀ k k', k < k' → k' ≤ (s.place i).1 →
    prog.Conflict S k j k' i → prog.Arrived s k j

/-- An agent enters phase `k'` after agent `j` has finished phase `k`: it has waited for `j`, or
for one who follows `j`. -/
inductive Follows (needs : P → Nat → Nat → Bool) (k j : Nat) : Nat → Nat → Prop
  | wait {k' i b : Nat} {p : P} (above : k ≤ b) (below : b < k')
      (phase : prog.schedule[b]? = some p)
      (waits : prog.waits p i j = true ∨ needs p i j = true) : Follows needs k j k' i
  | through {k' i b l : Nat} {p : P} (agent : l < prog.agents) (before : Follows needs k j b l)
      (below : b < k') (phase : prog.schedule[b]? = some p)
      (waits : prog.waits p i l = true ∨ needs p i l = true) : Follows needs k j k' i

/-- Between conflicting phases stands a barrier or a wait. -/
def Guarded (needs : P → Nat → Nat → Bool) : Prop :=
  ∀ i < prog.agents, ∀ j < prog.agents, i ≠ j → ∀ k k', k < k' → prog.Conflict S k j k' i →
    prog.Follows needs k j k' i

/-- A phase, one agent after the other. -/
def phase (p : P) : (Loc → Val) → Loc → Val :=
  loop prog.agents fun i => after S.run (prog.code p i)

/-- The memory before phase number `k` when the phases run one after the other. -/
def reference (m : Loc → Val) (k : Nat) : Loc → Val :=
  after (prog.phase S) (prog.schedule.take k) m

end Program

section Phases

variable {P : Type u} {A : Type v} {Loc : Type w} {Val : Type w} {prog : Program P A}
  {S : Semantics A Loc Val} {p : P} {i k : Nat} {x : Loc} {m : Loc → Val}

theorem Program.codeAt_eq (here : prog.schedule[k]? = some p) :
    prog.codeAt k i = prog.code p i := by
  rw [codeAt, here]

theorem Program.mem_codeAt {a : A} (member : a ∈ prog.codeAt k i) :
    ∃ p, prog.schedule[k]? = some p ∧ a ∈ prog.code p i := by
  unfold codeAt at member
  split at member
  · next p here => exact ⟨p, here, member⟩
  · cases member

/-- No agent but `i` writes `x` in the phase. -/
def Program.OthersKeep (prog : Program P A) (S : Semantics A Loc Val) (p : P) (i : Nat)
    (x : Loc) : Prop :=
  ∀ j < prog.agents, j ≠ i → ∀ a ∈ prog.code p j, ¬S.writes a x

/-- What an agent touches the others keep. -/
theorem Program.RaceFree.keep (free : prog.RaceFree S) (planned : p ∈ prog.schedule)
    (agent : i < prog.agents) {a : A} (member : a ∈ prog.code p i)
    (touches : S.reads a x ∨ S.writes a x) : prog.OthersKeep S p i x := by
  intro j other apart b action written
  obtain ⟨unread, unwritten⟩ := free p planned j other i agent apart b action a member x written
  exact touches.elim unread unwritten

/-- What one agent alone writes in a phase. -/
theorem Program.RaceFree.phase_own (free : prog.RaceFree S) (planned : p ∈ prog.schedule)
    (agent : i < prog.agents) (m : Loc → Val) (alone : prog.OthersKeep S p i x) :
    prog.phase S p m x = after S.run (prog.code p i) m x := by
  have progress : ∀ y, prog.OthersKeep S p i y → prog.phase S p m y =
      if i < prog.agents then after S.run (prog.code p i) m y else m y := by
    refine loop_invariant (fun c (m' : Loc → Val) => ∀ y, prog.OthersKeep S p i y →
      m' y = if i < c then after S.run (prog.code p i) m y else m y) (fun y _ => by simp) ?_
    intro c small m' so_far y alone
    by_cases mine : c = i
    · subst mine
      rw [if_pos (Nat.lt_succ_self c)]
      refine after_congr (prog.OthersKeep S p c) (fun a member x read =>
        free.keep planned agent member (.inl read)) (fun y alone => ?_) y alone
      rw [so_far y alone, if_neg (Nat.lt_irrefl c)]
    · rw [after_frame (alone c small mine), so_far y alone]
      exact if_congr (by omega) rfl rfl
  rw [progress x alone, if_pos agent]

/-- What no agent writes in a phase. -/
theorem Program.phase_frame (m : Loc → Val)
    (untouched : ∀ j < prog.agents, ∀ a ∈ prog.code p j, ¬S.writes a x) :
    prog.phase S p m x = m x :=
  loop_still (fun m : Loc → Val => m x) fun j agent _ => after_frame (untouched j agent)

theorem Program.reference_succ (phase : prog.schedule[k]? = some p) :
    prog.reference S m (k + 1) = prog.phase S p (prog.reference S m k) := by
  rw [reference, List.take_add_one, phase, after_append]
  rfl

/-- What no agent writes in a stretch of phases. -/
theorem Program.reference_frame {k' : Nat} (le : k ≤ k')
    (untouched : ∀ b, k ≤ b → b < k' → ∀ j < prog.agents, ∀ a ∈ prog.codeAt b j, ¬S.writes a x) :
    prog.reference S m k' x = prog.reference S m k x := by
  induction k', le using Nat.le_induction with
  | base => rfl
  | succ k' above ih =>
    have earlier := ih fun b ge lt => untouched b ge (Nat.lt_succ_of_lt lt)
    cases here : prog.schedule[k']? with
    | some p =>
      rw [reference_succ here, phase_frame _ fun j agent a member => ?_]
      · exact earlier
      · refine untouched k' above (Nat.lt_succ_self k') j agent a ?_
        rwa [codeAt_eq here]
    | none =>
      have same : prog.reference S m (k' + 1) = prog.reference S m k' := by
        rw [reference, List.take_add_one, here]
        simp [reference]
      rw [same]
      exact earlier

end Phases

/-! ## Runs -/

section Runs

variable {P : Type u} {A : Type v} {Loc : Type w} {Val : Type w} {prog : Program P A}
  {S : Semantics A Loc Val} {s t : State Loc Val} {i j k : Nat} {m : Loc → Val}

/-- What a step does: an action of the phase, or to the next phase. -/
theorem Program.step_cases (taken : prog.step S i s = some t) :
    i < prog.agents ∧ ∃ p, prog.schedule[(s.place i).1]? = some p ∧
      ((∃ a, (prog.code p i)[(s.place i).2]? = some a ∧ t = {
          memory := S.run a s.memory
          place := Function.update s.place i ((s.place i).1, (s.place i).2 + 1) }) ∨
        ((prog.code p i)[(s.place i).2]? = none ∧
          (∀ j < prog.agents, prog.waits p i j = true → prog.Arrived s (s.place i).1 j) ∧
          t = { s with place := Function.update s.place i ((s.place i).1 + 1, 0) })) := by
  unfold step at taken
  split at taken
  · next agent =>
      refine ⟨agent, ?_⟩
      split at taken
      · cases taken
      · next p phase =>
          refine ⟨p, phase, ?_⟩
          split at taken
          · next a action => exact .inl ⟨a, action, (Option.some.inj taken).symm⟩
          · next last =>
              split at taken
              · next waits => exact .inr ⟨last, waits, (Option.some.inj taken).symm⟩
              · cases taken
  · cases taken

/-! ### What is done and what is left -/

/-- What agent `i` has done of phase `k`. -/
def Program.done (prog : Program P A) (s : State Loc Val) (k i : Nat) : List A :=
  if k < (s.place i).1 then prog.codeAt k i
  else if k = (s.place i).1 then (prog.codeAt k i).take (s.place i).2 else []

/-- What it has left. -/
def Program.left (prog : Program P A) (s : State Loc Val) (k i : Nat) : List A :=
  if k < (s.place i).1 then []
  else if k = (s.place i).1 then (prog.codeAt k i).drop (s.place i).2 else prog.codeAt k i

theorem Program.done_append_left : prog.done s k i ++ prog.left s k i = prog.codeAt k i := by
  unfold done left
  split
  · exact List.append_nil _
  · split
    · exact List.take_append_drop _ _
    · rfl

theorem Program.left_of_arrived (arrived : prog.Arrived s k j) : prog.left s k j = [] := by
  unfold left
  rcases arrived with past | ⟨here, last⟩
  · rw [if_pos past]
  · rw [if_neg (by omega), if_pos here.symm, last, List.drop_length]

theorem Program.started_of_done {a : A} (member : a ∈ prog.done s k j) :
    k ≤ (s.place j).1 := by
  unfold done at member
  split at member
  · next past => exact past.le
  · split at member
    · next here => exact here.le
    · cases member

/-- All that writes `x` before phase `k` is done, nothing that writes it after. -/
structure Program.Cut (prog : Program P A) (S : Semantics A Loc Val) (s : State Loc Val) (x : Loc)
    (k : Nat) : Prop where
  past : ∀ j < prog.agents, ∀ k' < k, ∀ a ∈ prog.left s k' j, ¬S.writes a x
  future : ∀ j < prog.agents, ∀ k', k < k' → ∀ a ∈ prog.done s k' j, ¬S.writes a x

/-- At every cut the memory is that of the phases before and of what is done of the next. -/
structure Program.Consistent (prog : Program P A) (S : Semantics A Loc Val) (m : Loc → Val)
    (s : State Loc Val) : Prop where
  bound : ∀ i < prog.agents, (s.place i).2 ≤ (prog.codeAt (s.place i).1 i).length
  memory : ∀ x k, prog.Cut S s x k → ∀ i < prog.agents,
    (∀ p, prog.schedule[k]? = some p → prog.OthersKeep S p i x) →
      s.memory x = after S.run (prog.done s k i) (prog.reference S m k) x

theorem Program.consistent_start : prog.Consistent S m (start m) where
  bound _ _ := Nat.zero_le _
  memory x k cut i agent _ := by
    have nothing : ∀ k j, prog.done (start m) k j = [] := by
      intro k j
      unfold done start
      split
      · next past => exact absurd past (Nat.not_lt_zero k)
      · split <;> rfl
    have first : prog.reference S m k x = m x := by
      refine prog.reference_frame (Nat.zero_le k) fun b _ below j other a member => ?_
      refine cut.past j other b below a ?_
      have split := prog.done_append_left (s := start m) (k := b) (i := j)
      rw [nothing, List.nil_append] at split
      rwa [split]
    rw [nothing, after_nil, first]
    rfl

variable {a : A} {p : P} {x : Loc}

/-- Where an agent touches a word its own phase is a cut. -/
theorem Program.Clear.cut (clear : prog.Clear S s) (agent : i < prog.agents)
    (member : a ∈ prog.codeAt (s.place i).1 i) (unfinished : ¬prog.Arrived s (s.place i).1 i)
    (touches : S.reads a x ∨ S.writes a x) : prog.Cut S s x (s.place i).1 := by
  constructor
  · intro j other k' earlier b remains writes
    have whole : b ∈ prog.codeAt k' j := by
      rw [← prog.done_append_left (s := s)]
      exact List.mem_append_right _ remains
    by_cases mine : j = i
    · subst mine
      rw [left, if_pos earlier] at remains
      cases remains
    · have arrived := clear i agent j other (Ne.symm mine) k' _ earlier le_rfl
        ⟨b, whole, a, member, x, .inl ⟨writes, touches⟩⟩
      rw [prog.left_of_arrived arrived] at remains
      cases remains
  · intro j other k' later b did writes
    have started := prog.started_of_done did
    have whole : b ∈ prog.codeAt k' j := by
      rw [← prog.done_append_left (s := s)]
      exact List.mem_append_left _ did
    by_cases mine : j = i
    · subst mine
      omega
    · exact unfinished (clear j other i agent mine _ k' later started
        ⟨a, member, b, whole, x, .inr ⟨touches, writes⟩⟩)

/-- What an agent sees. -/
theorem Program.Consistent.sees (consistent : prog.Consistent S m s) (free : prog.RaceFree S)
    (clear : prog.Clear S s) (agent : i < prog.agents)
    (phase : prog.schedule[(s.place i).1]? = some p)
    (action : (prog.code p i)[(s.place i).2]? = some a) (touches : S.reads a x ∨ S.writes a x) :
    s.memory x = after S.run ((prog.code p i).take (s.place i).2)
      (prog.reference S m (s.place i).1) x := by
  have code := prog.codeAt_eq (i := i) phase
  have inside := (List.getElem?_eq_some_iff.mp action).1
  have member : a ∈ prog.code p i := List.mem_of_getElem? action
  have unfinished : ¬prog.Arrived s (s.place i).1 i := by
    rintro (past | ⟨_, last⟩)
    · exact Nat.lt_irrefl _ past
    · rw [code] at last
      omega
  have cut := clear.cut agent (by rwa [code]) unfinished touches
  rw [consistent.memory x _ cut i agent fun q same => ?_]
  · rw [done, if_neg (Nat.lt_irrefl _), if_pos rfl, code]
  · obtain rfl : p = q := Option.some.inj (phase.symm.trans same)
    exact free.keep (List.mem_of_getElem? phase) agent member touches

/-- An agent acts. -/
theorem Program.Consistent.act (consistent : prog.Consistent S m s) (free : prog.RaceFree S)
    (clear : prog.Clear S s) (agent : i < prog.agents)
    (phase : prog.schedule[(s.place i).1]? = some p)
    (action : (prog.code p i)[(s.place i).2]? = some a)
    (is : t = { memory := S.run a s.memory
                place := Function.update s.place i ((s.place i).1, (s.place i).2 + 1) }) :
    prog.Consistent S m t := by
  have code := prog.codeAt_eq (i := i) phase
  have inside := (List.getElem?_eq_some_iff.mp action).1
  have member : a ∈ prog.code p i := List.mem_of_getElem? action
  have planned : p ∈ prog.schedule := List.mem_of_getElem? phase
  have memory : t.memory = S.run a s.memory := by rw [is]
  have elsewhere : ∀ j, j ≠ i → t.place j = s.place j := by
    intro j apart
    rw [is]
    exact Function.update_of_ne apart _ _
  have here : t.place i = ((s.place i).1, (s.place i).2 + 1) := by
    rw [is]
    exact Function.update_self _ _ _
  generalize now : (s.place i).1 = k₀ at *
  have did : prog.done t k₀ i = prog.done s k₀ i ++ [a] := by
    rw [done, done, here, now, if_neg (Nat.lt_irrefl _), if_pos rfl, if_neg (Nat.lt_irrefl _),
      if_pos rfl, code, List.take_add_one, action]
    rfl
  have same_done : ∀ k j, (j ≠ i ∨ k ≠ k₀) → prog.done t k j = prog.done s k j := by
    intro k j apart
    by_cases mine : j = i
    · subst mine
      have other := apart.resolve_left (fun ne => ne rfl)
      rw [done, done, here, now, if_neg other, if_neg other]
    · rw [done, done, elsewhere j mine]
  have same_left : ∀ k j, (j ≠ i ∨ k ≠ k₀) → prog.left t k j = prog.left s k j := by
    intro k j apart
    by_cases mine : j = i
    · subst mine
      have other := apart.resolve_left (fun ne => ne rfl)
      rw [left, left, here, now, if_neg other, if_neg other]
    · rw [left, left, elsewhere j mine]
  have remains : prog.left s k₀ i = a :: prog.left t k₀ i := by
    rw [left, left, here, now, if_neg (Nat.lt_irrefl _), if_pos rfl, if_neg (Nat.lt_irrefl _),
      if_pos rfl, code, List.drop_eq_getElem_cons inside]
    congr 1
    exact (List.getElem?_eq_some_iff.mp action).2
  have unfinished : ¬prog.Arrived s k₀ i := by
    rintro (past | ⟨_, last⟩)
    · rw [now] at past
      exact Nat.lt_irrefl _ past
    · rw [code] at last
      omega
  have own : ∀ x, S.reads a x ∨ S.writes a x → s.memory x =
      after S.run (prog.done s k₀ i) (prog.reference S m k₀) x := by
    intro x touches
    rw [consistent.sees free clear agent (by rwa [now]) action touches, done, now,
      if_neg (Nat.lt_irrefl _), if_pos rfl, code]
  refine ⟨fun j other => ?_, fun x k cut j other alone => ?_⟩
  · by_cases mine : j = i
    · subst mine
      rw [here, code]
      exact inside
    · rw [elsewhere j mine]
      exact consistent.bound j other
  · rw [memory]
    by_cases writes : S.writes a x
    · have value : S.run a s.memory x =
          after S.run (prog.done t k₀ i) (prog.reference S m k₀) x := by
        rw [did, after_append]
        exact S.determined a _ _ (fun y read => own y (.inl read)) x writes
      have le : k₀ ≤ k := by
        by_contra before
        refine cut.future i agent k₀ (Nat.lt_of_not_le before) a ?_ writes
        rw [did]
        exact List.mem_append_right _ List.mem_cons_self
      -- nobody has written `x` in a later phase, since this one conflicts and is not finished
      have later_none : ∀ b, k₀ < b → ∀ j' < prog.agents, ∀ a' ∈ prog.done t b j',
          ¬S.writes a' x := by
        intro b later j' other' a' did' writes'
        have started := prog.started_of_done did'
        have whole : a' ∈ prog.codeAt b j' := by
          rw [← prog.done_append_left (s := t)]
          exact List.mem_append_left _ did'
        by_cases mine : j' = i
        · subst mine
          rw [here] at started
          exact Nat.not_lt_of_le started later
        · rw [elsewhere j' mine] at started
          exact unfinished (clear j' other' i agent mine k₀ b later started
            ⟨a, by rwa [code], a', whole, x, .inl ⟨writes, .inr writes'⟩⟩)
      rcases Nat.eq_or_lt_of_le le with rfl | later
      · obtain rfl : j = i := by
          by_contra apart
          exact alone p phase i agent (Ne.symm apart) a member writes
        exact value
      · have stretch : prog.reference S m k x = prog.reference S m (k₀ + 1) x := by
          refine prog.reference_frame later fun b above below j' other' a' whole writes' => ?_
          rw [← prog.done_append_left (s := t)] at whole
          rcases List.mem_append.mp whole with did' | remains'
          · exact later_none b above j' other' a' did' writes'
          · exact cut.past j' other' b below a' remains' writes'
        rw [after_frame (later_none k later j other), stretch, prog.reference_succ phase,
          free.phase_own planned agent _ (free.keep planned agent member (.inr writes)), ← code,
          ← prog.done_append_left (s := t), after_append,
          after_frame (cut.past i agent k₀ later)]
        exact value
    · -- the action is not about `x`
      rw [S.frame a _ x writes]
      have before : prog.Cut S s x k := by
        constructor
        · intro j' other' k' earlier b remains'
          by_cases apart : j' ≠ i ∨ k' ≠ k₀
          · rw [← same_left k' j' apart] at remains'
            exact cut.past j' other' k' earlier b remains'
          · obtain ⟨rfl, rfl⟩ : j' = i ∧ k' = k₀ := by
              constructor <;> by_contra ne
              · exact apart (.inl ne)
              · exact apart (.inr ne)
            rw [remains] at remains'
            rcases List.mem_cons.mp remains' with rfl | later
            · exact writes
            · exact cut.past j' other' k' earlier b later
        · intro j' other' k' later b did'
          refine cut.future j' other' k' later b ?_
          by_cases apart : j' ≠ i ∨ k' ≠ k₀
          · rwa [same_done k' j' apart]
          · obtain ⟨rfl, rfl⟩ : j' = i ∧ k' = k₀ := by
              constructor <;> by_contra ne
              · exact apart (.inl ne)
              · exact apart (.inr ne)
            rw [did]
            exact List.mem_append_left _ did'
      rw [consistent.memory x k before j other alone]
      by_cases apart : j ≠ i ∨ k ≠ k₀
      · rw [same_done k j apart]
      · obtain ⟨rfl, rfl⟩ : j = i ∧ k = k₀ := by
          constructor <;> by_contra ne
          · exact apart (.inl ne)
          · exact apart (.inr ne)
        rw [did, after_append]
        exact (S.frame a _ x writes).symm

/-- An agent goes on to its next phase: nothing more is done, nothing less is left. -/
theorem Program.Consistent.pass (consistent : prog.Consistent S m s)
    (agent : i < prog.agents) (phase : prog.schedule[(s.place i).1]? = some p)
    (last : (prog.code p i)[(s.place i).2]? = none) :
    prog.Consistent S m
      { s with place := Function.update s.place i ((s.place i).1 + 1, 0) } := by
  have code := prog.codeAt_eq (i := i) phase
  have whole : (s.place i).2 = (prog.codeAt (s.place i).1 i).length := by
    have ended := List.getElem?_eq_none_iff.mp last
    have bound := consistent.bound i agent
    rw [code] at bound ⊢
    omega
  generalize is : ({ s with place := Function.update s.place i ((s.place i).1 + 1, 0) } :
    State Loc Val) = t
  have memory : t.memory = s.memory := by rw [← is]
  have elsewhere : ∀ j, j ≠ i → t.place j = s.place j := by
    intro j apart
    rw [← is]
    exact Function.update_of_ne apart _ _
  have here : t.place i = ((s.place i).1 + 1, 0) := by
    rw [← is]
    exact Function.update_self _ _ _
  have same_done : ∀ k j, prog.done t k j = prog.done s k j := by
    intro k j
    by_cases mine : j = i
    · subst mine
      unfold done
      rw [here]
      rcases Nat.lt_trichotomy k (s.place j).1 with past | rfl | ahead
      · rw [if_pos (Nat.lt_succ_of_lt past), if_pos past]
      · rw [if_pos (Nat.lt_succ_self _), if_neg (Nat.lt_irrefl _), if_pos rfl, whole,
          List.take_length]
      · simp only [List.take_zero, ite_self]
        rw [if_neg (by omega), if_neg (by omega), if_neg (by omega)]
    · rw [done, done, elsewhere j mine]
  have same_left : ∀ k j, prog.left t k j = prog.left s k j := by
    intro k j
    have split := prog.done_append_left (s := t) (k := k) (i := j)
    rw [same_done, ← prog.done_append_left (s := s)] at split
    exact List.append_cancel_left split
  refine ⟨fun j other => ?_, fun x k cut j other alone => ?_⟩
  · by_cases mine : j = i
    · subst mine
      rw [here]
      exact Nat.zero_le _
    · rw [elsewhere j mine]
      exact consistent.bound j other
  · rw [memory, same_done]
    refine consistent.memory x k ⟨?_, ?_⟩ j other alone
    · intro j' other' k' earlier b remains
      refine cut.past j' other' k' earlier b ?_
      rwa [same_left]
    · intro j' other' k' later b did
      refine cut.future j' other' k' later b ?_
      rwa [same_done]

/-! ### Barriers and waits -/

variable {needs : P → Nat → Nat → Bool} {k' : Nat}

/-- Whom an agent waited for has finished the phase. -/
def Program.Waited (prog : Program P A) (needs : P → Nat → Nat → Bool) (s : State Loc Val) : Prop :=
  ∀ i < prog.agents, ∀ j < prog.agents, ∀ b p, prog.schedule[b]? = some p → b < (s.place i).1 →
    (prog.waits p i j = true ∨ needs p i j = true) → prog.Arrived s b j

/-- Whoever follows an agent finds it finished. -/
theorem Program.Waited.arrived (waited : prog.Waited needs s) (other : j < prog.agents)
    (follows : prog.Follows needs k j k' i) (agent : i < prog.agents) (entered : k' ≤ (s.place i).1) :
    prog.Arrived s k j := by
  induction follows with
  | wait above below phase waits =>
    rcases waited _ agent j other _ _ phase (Nat.lt_of_lt_of_le below entered) waits with
      past | here
    · exact .inl (Nat.lt_of_le_of_lt above past)
    · rcases Nat.eq_or_lt_of_le above with rfl | before
      · exact .inr here
      · exact .inl (by omega)
  | through between before below phase waits ih =>
    refine ih between ?_
    rcases waited _ agent _ between _ _ phase (Nat.lt_of_lt_of_le below entered) waits with
      past | here
    · exact past.le
    · exact here.1.ge

theorem Program.Waited.clear (waited : prog.Waited needs s) (guarded : prog.Guarded S needs) :
    prog.Clear S s := by
  intro i agent j other apart k k' earlier entered conflict
  exact waited.arrived other (guarded i agent j other apart k k' earlier conflict) agent entered

/-- What is finished stays finished. -/
theorem Program.arrived_mono (taken : prog.step S i s = some t) (arrived : prog.Arrived s k j) :
    prog.Arrived t k j := by
  obtain ⟨_, p, phase, ⟨a, action, rfl⟩ | ⟨_, _, rfl⟩⟩ := prog.step_cases taken
  · by_cases mine : j = i
    · subst mine
      rcases arrived with past | ⟨here, last⟩
      · refine .inl ?_
        simpa using past
      · have inside := (List.getElem?_eq_some_iff.mp action).1
        rw [here] at phase
        rw [prog.codeAt_eq phase] at last
        omega
    · simpa only [Arrived, Function.update_of_ne mine] using arrived
  · by_cases mine : j = i
    · subst mine
      refine .inl ?_
      simp only [Function.update_self]
      rcases arrived with past | ⟨here, _⟩ <;> omega
    · simpa only [Arrived, Function.update_of_ne mine] using arrived

theorem Program.Waited.step (waited : prog.Waited needs s) (awaits : prog.Awaits needs s i)
    (taken : prog.step S i s = some t) : prog.Waited needs t := by
  intro k agent j other b q phase entered waits
  refine prog.arrived_mono taken ?_
  by_cases already : b < (s.place k).1
  · exact waited k agent j other b q phase already waits
  · -- only the agent that goes on has entered a phase
    obtain ⟨_, p, here, ⟨a, _, rfl⟩ | ⟨last, met, rfl⟩⟩ := prog.step_cases taken
    · by_cases mine : k = i
      · subst mine
        simp only [Function.update_self] at entered
        exact absurd entered already
      · simp only [Function.update_of_ne mine] at entered
        exact absurd entered already
    · by_cases mine : k = i
      · subst mine
        simp only [Function.update_self] at entered
        obtain rfl : b = (s.place k).1 := by omega
        obtain rfl : q = p := Option.some.inj (phase.symm.trans here)
        exact waits.elim (met j other) (awaits q here last j other)
      · simp only [Function.update_of_ne mine] at entered
        exact absurd entered already

/-- **Every reached state is consistent.** -/
theorem Program.reaches_consistent (free : prog.RaceFree S) (guarded : prog.Guarded S needs)
    (reached : (prog.machine S).Reaches (prog.Awaits needs) (start m) s) :
    prog.Consistent S m s ∧ prog.Waited needs s := by
  refine reached.invariant (fun s => prog.Consistent S m s ∧ prog.Waited needs s)
    ⟨consistent_start, fun _ _ _ _ b _ _ entered => absurd entered (Nat.not_lt_zero b)⟩ ?_
  rintro s i t ⟨consistent, waited⟩ awaits taken
  refine ⟨?_, waited.step awaits taken⟩
  obtain ⟨agent, p, phase, ⟨a, action, is⟩ | ⟨last, _, rfl⟩⟩ := prog.step_cases taken
  · exact consistent.act free (waited.clear guarded) agent phase action is
  · exact consistent.pass agent phase last

/-- **What an agent sees**: the memory of the phases before, changed by its own actions. -/
theorem Program.memory_eq (free : prog.RaceFree S) (guarded : prog.Guarded S needs)
    (reached : (prog.machine S).Reaches (prog.Awaits needs) (start m) s) (agent : i < prog.agents)
    (phase : prog.schedule[(s.place i).1]? = some p)
    (action : (prog.code p i)[(s.place i).2]? = some a) (touches : S.reads a x ∨ S.writes a x) :
    s.memory x = after S.run ((prog.code p i).take (s.place i).2)
      (prog.reference S m (s.place i).1) x := by
  obtain ⟨consistent, waited⟩ := prog.reaches_consistent free guarded reached
  exact consistent.sees free (waited.clear guarded) agent phase action touches

/-- **What the phases leave.** -/
theorem Program.memory_done (free : prog.RaceFree S) (guarded : prog.Guarded S needs)
    (reached : (prog.machine S).Reaches (prog.Awaits needs) (start m) s)
    (some_agent : 0 < prog.agents)
    (ended : ∀ i < prog.agents, prog.schedule.length ≤ (s.place i).1) :
    s.memory = prog.reference S m prog.schedule.length := by
  obtain ⟨consistent, _⟩ := prog.reaches_consistent free guarded reached
  have nothing : ∀ k j, prog.schedule.length ≤ k → prog.done s k j = [] := by
    intro k j ended
    have empty : prog.codeAt k j = [] := by
      rw [codeAt, List.getElem?_eq_none ended]
    simp [done, empty]
  funext x
  rw [consistent.memory x prog.schedule.length ⟨?_, ?_⟩ 0 some_agent ?_, nothing _ _ le_rfl,
    after_nil]
  · intro j other k below a remains
    rw [left, if_pos (Nat.lt_of_lt_of_le below (ended j other))] at remains
    cases remains
  · intro j _ k above a did
    rw [nothing k j above.le] at did
    cases did
  · intro q here
    simp at here

end Runs

/-! ## Every run ends

An agent that is behind all others can go on, and each step is one of finitely many. -/

section Ends

variable {P : Type u} {A : Type v} {Loc : Type w} {Val : Type w} {prog : Program P A}
  {S : Semantics A Loc Val} {m : Loc → Val} {s t : State Loc Val} {i : Nat}

/-- The places are places of the program. -/
def Program.Fits (prog : Program P A) (s : State Loc Val) : Prop :=
  ∀ i, (s.place i).1 ≤ prog.schedule.length ∧
    (s.place i).2 ≤ (prog.codeAt (s.place i).1 i).length

theorem Program.fits_start : prog.Fits (start m : State Loc Val) := fun _ =>
  ⟨Nat.zero_le _, Nat.zero_le _⟩

theorem Program.Fits.step (fits : prog.Fits s) (taken : prog.step S i s = some t) :
    prog.Fits t := by
  obtain ⟨_, p, phase, ⟨a, action, rfl⟩ | ⟨_, _, rfl⟩⟩ := prog.step_cases taken
  · have inside := (List.getElem?_eq_some_iff.mp action).1
    refine forall_update (fun j (x : Nat × Nat) => x.1 ≤ prog.schedule.length ∧
      x.2 ≤ (prog.codeAt x.1 j).length) ⟨(fits i).1, ?_⟩ fun j _ => fits j
    rw [prog.codeAt_eq phase]
    exact inside
  · have here := (List.getElem?_eq_some_iff.mp phase).1
    exact forall_update (fun j (x : Nat × Nat) => x.1 ≤ prog.schedule.length ∧
      x.2 ≤ (prog.codeAt x.1 j).length) ⟨here, Nat.zero_le _⟩ fun j _ => fits j

/-- **No deadlock**: where no agent can go on, all are through. -/
theorem Program.Fits.through (fits : prog.Fits s) (stuck : ∀ i, prog.step S i s = none) :
    ∀ i < prog.agents, prog.schedule.length ≤ (s.place i).1 := by
  by_contra unfinished
  simp only [not_forall, Nat.not_le] at unfinished
  obtain ⟨i₀, agent₀, before₀⟩ := unfinished
  obtain ⟨i, agent, last⟩ := Finset.exists_min_image (Finset.range prog.agents)
    (fun i => (s.place i).1) ⟨i₀, Finset.mem_range.mpr agent₀⟩
  have before : (s.place i).1 < prog.schedule.length :=
    Nat.lt_of_le_of_lt (last i₀ (Finset.mem_range.mpr agent₀)) before₀
  -- the agents that are as far have all done their part
  have finished : ∀ j < prog.agents, (s.place j).1 = (s.place i).1 →
      (prog.code (prog.schedule[(s.place i).1]) j)[(s.place j).2]? = none := by
    intro j other same
    by_contra more
    obtain ⟨a, action⟩ := Option.ne_none_iff_exists'.mp more
    have moves := stuck j
    simp [Program.step, other, same, List.getElem?_eq_getElem before, action] at moves
  have arrived : ∀ j < prog.agents, prog.Arrived s (s.place i).1 j := by
    intro j other
    rcases Nat.eq_or_lt_of_le (last j (Finset.mem_range.mpr other)) with same | past
    · have ended := List.getElem?_eq_none_iff.mp (finished j other same.symm)
      have bound := (fits j).2
      rw [← same] at bound
      refine .inr ⟨same.symm, Nat.le_antisymm bound ?_⟩
      rwa [prog.codeAt_eq (List.getElem?_eq_getElem before)]
    · exact .inl past
  have moves := stuck i
  have agent := Finset.mem_range.mp agent
  simp only [Program.step, agent, if_true, List.getElem?_eq_getElem before,
    finished i agent rfl] at moves
  rw [if_pos fun j other _ => arrived j other] at moves
  cases moves

/-- How many steps an agent takes through the first phases. -/
def Program.steps (prog : Program P A) (i k : Nat) : Nat :=
  ∑ b ∈ Finset.range k, ((prog.codeAt b i).length + 1)

theorem Program.Fits.taken (fits : prog.Fits s) :
    ∑ i ∈ Finset.range prog.agents, (prog.steps i (s.place i).1 + (s.place i).2) ≤
      ∑ i ∈ Finset.range prog.agents, prog.steps i prog.schedule.length := by
  refine Finset.sum_le_sum fun i _ => ?_
  obtain ⟨through, inside⟩ := fits i
  rcases Nat.eq_or_lt_of_le through with last | before
  · have empty : prog.codeAt (s.place i).1 i = [] := by
      rw [codeAt, List.getElem?_eq_none last.ge]
    rw [empty] at inside
    rw [Nat.le_zero.mp inside, last, Nat.add_zero]
  · calc prog.steps i (s.place i).1 + (s.place i).2
        ≤ prog.steps i ((s.place i).1 + 1) := by
          rw [steps, steps, Finset.sum_range_succ]
          omega
      _ ≤ prog.steps i prog.schedule.length :=
          Finset.sum_le_sum_of_subset (Finset.range_subset_range.mpr before)

/-- A step is counted. -/
theorem Program.Fits.counted (fits : prog.Fits s) (taken : prog.step S i s = some t) :
    ∑ j ∈ Finset.range prog.agents, (prog.steps j (t.place j).1 + (t.place j).2) =
      ∑ j ∈ Finset.range prog.agents, (prog.steps j (s.place j).1 + (s.place j).2) + 1 := by
  have agent := (prog.step_cases taken).1
  have others : ∀ j, j ≠ i → t.place j = s.place j := by
    intro j other
    obtain ⟨_, p, _, ⟨a, _, rfl⟩ | ⟨_, _, rfl⟩⟩ := prog.step_cases taken <;>
      exact Function.update_of_ne other _ _
  have here : prog.steps i (t.place i).1 + (t.place i).2 =
      prog.steps i (s.place i).1 + (s.place i).2 + 1 := by
    obtain ⟨_, p, phase, ⟨a, _, rfl⟩ | ⟨last, _, rfl⟩⟩ := prog.step_cases taken
    · simp only [Function.update_self]
      omega
    · have inside := (fits i).2
      have ended := List.getElem?_eq_none_iff.mp last
      have code := prog.codeAt_eq (i := i) phase
      rw [code] at inside
      simp only [Function.update_self, steps, Finset.sum_range_succ, code]
      omega
  rw [← Finset.add_sum_erase _ _ (Finset.mem_range.mpr agent), here,
    ← Finset.add_sum_erase _ (fun j => prog.steps j (s.place j).1 + (s.place j).2)
      (Finset.mem_range.mpr agent),
    Finset.sum_congr rfl fun j member => by rw [others j (Finset.mem_erase.mp member).1]]
  omega

theorem Program.run_counted {schedule : List Nat} (fits : prog.Fits s)
    (ran : (prog.machine S).run s schedule = some t) :
    ∑ i ∈ Finset.range prog.agents, (prog.steps i (s.place i).1 + (s.place i).2) + schedule.length ≤
      ∑ i ∈ Finset.range prog.agents, prog.steps i prog.schedule.length := by
  induction schedule generalizing s with
  | nil =>
    cases ran
    exact fits.taken
  | cons i rest ih =>
    obtain ⟨next, taken, ran⟩ := Option.bind_eq_some_iff.mp ran
    have later := ih (fits.step taken) ran
    rw [fits.counted taken] at later
    rw [List.length_cons]
    omega

/-- How many steps all agents take. -/
def Program.size (prog : Program P A) : Nat :=
  ∑ i ∈ Finset.range prog.agents, prog.steps i prog.schedule.length

/-- **Every run ends.** -/
theorem Program.run_length {schedule : List Nat}
    (ran : (prog.machine S).run (start m) schedule = some t) : schedule.length ≤ prog.size :=
  Nat.le_trans (Nat.le_add_left _ _) (prog.run_counted prog.fits_start ran)

theorem Program.fits_of_reachable (reached : (prog.machine S).Reachable (start m) s) :
    prog.Fits s :=
  reached.invariant prog.Fits prog.fits_start fun _ _ _ fits _ taken => fits.step taken

/-- Runs are finite, and one that cannot go on has gone through all phases. -/
structure Program.Completes (prog : Program P A) (S : Semantics A Loc Val) : Prop where
  bounded : ∀ m schedule s, (prog.machine S).run (start m) schedule = some s →
    schedule.length ≤ prog.size
  through : ∀ m s, (prog.machine S).Reachable (start m) s → (∀ i, prog.step S i s = none) →
    ∀ i < prog.agents, prog.schedule.length ≤ (s.place i).1

theorem Program.completes (prog : Program P A) (S : Semantics A Loc Val) : prog.Completes S :=
  ⟨fun _ _ _ => prog.run_length, fun _ _ reached stuck =>
    (prog.fits_of_reachable reached).through stuck⟩

/-- **Some run goes through all phases.** -/
theorem Program.exists_through (prog : Program P A) (S : Semantics A Loc Val) (m : Loc → Val) :
    ∃ s, (prog.machine S).Reachable (start m) s ∧
      ∀ i < prog.agents, prog.schedule.length ≤ (s.place i).1 := by
  by_contra none
  -- otherwise every run goes on, and counts more steps than there are
  have longer : ∀ n, ∃ s, (prog.machine S).Reachable (start m) s ∧
      n ≤ ∑ i ∈ Finset.range prog.agents, (prog.steps i (s.place i).1 + (s.place i).2) := by
    intro n
    induction n with
    | zero => exact ⟨start m, .start, Nat.zero_le _⟩
    | succ n ih =>
      obtain ⟨s, reached, counted⟩ := ih
      have fits := prog.fits_of_reachable reached
      have moves : ∃ i, prog.step S i s ≠ Option.none := by
        by_contra stuck
        exact none ⟨s, reached, fits.through fun i => by
          by_contra moves
          exact stuck ⟨i, moves⟩⟩
      obtain ⟨i, moves⟩ := moves
      obtain ⟨t, taken⟩ := Option.ne_none_iff_exists'.mp moves
      refine ⟨t, reached.step (l := i) trivial taken, ?_⟩
      rw [fits.counted taken]
      exact Nat.succ_le_succ counted
  obtain ⟨s, reached, counted⟩ := longer (prog.size + 1)
  have bound := (prog.fits_of_reachable reached).taken
  simp only [size] at counted
  omega

end Ends

/-! ## One program, two meanings -/

section Refines

variable {P : Type u} {A : Type v} {Loc : Type w} {Val : Type w} {Loc' : Type w} {Val' : Type w}
  {prog : Program P A} {S : Semantics A Loc Val} {m : Loc → Val} {m' : Loc' → Val'}
  {s : State Loc Val}

/-- **A relation between the memories that every action keeps holds along a run** and its
counterpart, action for action. -/
theorem Program.reachable_refines (S' : Semantics A Loc' Val')
    (R : (Loc → Val) → (Loc' → Val') → Prop)
    (keeps : ∀ p ∈ prog.schedule, ∀ i < prog.agents, ∀ a ∈ prog.code p i, ∀ m m', R m m' →
      R (S.run a m) (S'.run a m'))
    (related : R m m') (reached : (prog.machine S).Reachable (start m) s) :
    ∃ s', (prog.machine S').Reachable (start m') s' ∧ s'.place = s.place ∧
      R s.memory s'.memory := by
  induction reached with
  | start => exact ⟨start m', .start, rfl, related⟩
  | @step s t i before _ taken ih =>
    obtain ⟨s', reached', place, related⟩ := ih
    have arrived : ∀ k j, prog.Arrived s k j → prog.Arrived s' k j := fun k j => by
      simp only [Arrived, place, imp_self]
    obtain ⟨agent, p, phase, ⟨a, action, rfl⟩ | ⟨last, met, rfl⟩⟩ := prog.step_cases taken
    · refine ⟨⟨S'.run a s'.memory,
        Function.update s'.place i ((s'.place i).1, (s'.place i).2 + 1)⟩, ?_, ?_, ?_⟩
      · refine reached'.step (l := i) trivial ?_
        simp only [machine, step, agent, if_true, place, phase, action]
      · rw [place]
      · exact keeps p (List.mem_of_getElem? phase) i agent a (List.mem_of_getElem? action) _ _
          related
    · refine ⟨⟨s'.memory, Function.update s'.place i ((s'.place i).1 + 1, 0)⟩, ?_, ?_, related⟩
      · refine reached'.step (l := i) trivial ?_
        simp only [machine, step, agent, if_true, place, phase, last]
        rw [if_pos fun j other waits => arrived _ j (met j other waits)]
      · rw [place]

end Refines

end SnitchCluster.Theory.Supersteps
