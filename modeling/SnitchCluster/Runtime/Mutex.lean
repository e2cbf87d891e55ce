/-
# Runtime.Mutex -- the test-and-set locks, one instruction at a time

`snrt_mutex_acquire` swaps a one into the mutex word until a zero comes back,
`snrt_mutex_ttas_acquire` first reads the word until it is zero and then swaps in the
same way, and `snrt_mutex_release` swaps a zero in.  Harts mix the two freely and their
instructions interleave in any order.

The lock changes hands at the swap, not at the branch behind it: `Owns` counts a hart
that has swapped the zero out and has not looked at it yet.  `Guarded` says that the word
is one exactly while somebody owns the lock, and that only one hart does.
-/
import SnitchCluster.Theory.Interleaving

namespace SnitchCluster.Runtime.Mutex

open Theory

/-- The next instruction of a hart that acquires, with its register `t0`. -/
inductive Acquire
  | lw
  | bnezRead (t0 : BitVec 32)
  | amoswap (t0 : BitVec 32)
  | bnezSwap (t0 : BitVec 32)
  deriving DecidableEq, Repr

def snrtMutexAcquire : Acquire := .amoswap 1

def snrtMutexTtasAcquire : Acquire := .lw

/-- The word and the instruction after the next, `none` behind the loop.  The inner loop of
either routine goes back to the swap and swaps in what it has read. -/
def Acquire.step (mtx : BitVec 32) : Acquire → BitVec 32 × Option Acquire
  | .lw => (mtx, some (.bnezRead mtx))
  | .bnezRead t0 => (mtx, some (if t0 = 0 then .amoswap 1 else .lw))
  | .amoswap t0 => (t0, some (.bnezSwap mtx))
  | .bnezSwap t0 => (mtx, if t0 = 0 then none else some (.amoswap t0))

/-- Where a hart is. -/
inductive Place
  | away
  | trying (a : Acquire)
  | inside
  deriving DecidableEq, Repr

inductive Move
  | call (entry : Acquire)
  | acquire
  | release
  deriving DecidableEq, Repr

/-- One instruction of one hart. -/
def Place.step (mtx : BitVec 32) : Move → Place → Option (BitVec 32 × Place)
  | .call entry, .away =>
      if entry = snrtMutexAcquire ∨ entry = snrtMutexTtasAcquire then some (mtx, .trying entry)
      else none
  | .acquire, .trying a =>
      let (mtx', next) := a.step mtx
      some (mtx', next.elim .inside .trying)
  | .release, .inside => some (0, .away)
  | _, _ => none

structure State (ι : Type) where
  mtx : BitVec 32
  harts : ι → Place

variable {ι : Type} [DecidableEq ι]

/-- The harts that share one mutex. -/
def mutex : Interleaving (State ι) (ι × Move) where
  step l s := (Place.step s.mtx l.2 (s.harts l.1)).map fun (mtx, place) =>
    { mtx, harts := Function.update s.harts l.1 place }

def start : State ι where
  mtx := 0
  harts _ := .away

/-! ## The lock that the word stands for -/

/-- A lock with its owner: free it goes to whoever asks, held only its owner gives it back. -/
def lock : Interleaving (Option ι) ι where
  step i
    | none => some (some i)
    | some j => if j = i then some none else none

theorem lock_step {i : ι} {owner owner' : Option ι} (taken : lock.step i owner = some owner') :
    owner = none ∧ owner' = some i ∨ owner = some i ∧ owner' = none := by
  cases owner with
  | none => exact .inl ⟨rfl, (Option.some.inj taken).symm⟩
  | some j =>
    simp only [lock] at taken
    split at taken
    · next same => exact .inr ⟨congrArg some same, (Option.some.inj taken).symm⟩
    · cases taken

/-- The hart has the lock. -/
def Place.Owns (p : Place) : Prop := p = .inside ∨ p = .trying (.bnezSwap 0)

/-- What the register of a hart holds. -/
def Place.Carries : Place → Prop
  | .trying (.amoswap t0) => t0 = 1
  | .trying (.bnezSwap t0) => t0 = 0 ∨ t0 = 1
  | _ => True

/-- The word and the harts agree on who owns the lock. -/
structure Guarded (owner : Option ι) (mtx : BitVec 32) (places : ι → Place) : Prop where
  carries : ∀ i, (places i).Carries
  word : mtx = if owner = none then 0 else 1
  owns : ∀ i, (places i).Owns ↔ owner = some i

/-- What one instruction does to the lock. -/
inductive Change (mtx mtx' : BitVec 32) (p p' : Place) : Prop
  | keep (word : mtx' = mtx) (same : p'.Owns ↔ p.Owns)
  | take (free : mtx = 0) (word : mtx' = 1) (owns : p'.Owns)
  | give (owns : p.Owns) (word : mtx' = 0) (out : ¬p'.Owns)

theorem Place.step_change {mtx mtx' : BitVec 32} {m : Move} {p p' : Place} (carries : p.Carries)
    (word : mtx = 0 ∨ mtx = 1) (taken : p.step mtx m = some (mtx', p')) :
    p'.Carries ∧ Change mtx mtx' p p' := by
  cases p with
  | away =>
    cases m <;> simp only [Place.step, reduceCtorEq] at taken
    split at taken
    · next entry =>
        cases taken
        rcases entry with rfl | rfl
        · exact ⟨rfl, .keep rfl (by simp [Place.Owns, snrtMutexAcquire])⟩
        · exact ⟨trivial, .keep rfl (by simp [Place.Owns, snrtMutexTtasAcquire])⟩
    · cases taken
  | inside =>
    cases m <;> simp only [Place.step, reduceCtorEq] at taken
    cases taken
    exact ⟨trivial, .give (.inl rfl) rfl (by simp [Place.Owns])⟩
  | trying a =>
    cases m <;> simp only [Place.step, reduceCtorEq, Option.some.injEq, Prod.mk.injEq] at taken
    obtain ⟨rfl, rfl⟩ := taken
    cases a with
    | lw => exact ⟨trivial, .keep rfl (by simp [Place.Owns, Acquire.step])⟩
    | bnezRead t0 =>
      simp only [Acquire.step, Option.elim]
      split
      · exact ⟨rfl, .keep rfl (by simp [Place.Owns])⟩
      · exact ⟨trivial, .keep rfl (by simp [Place.Owns])⟩
    | amoswap t0 =>
      -- the swap decides: a zero that comes out is the lock
      obtain rfl : t0 = 1 := carries
      refine ⟨word, ?_⟩
      rcases word with rfl | rfl
      · exact .take rfl rfl (.inr rfl)
      · exact .keep rfl (by simp [Place.Owns, Acquire.step])
    | bnezSwap t0 =>
      rcases carries with rfl | rfl
      · exact ⟨trivial, .keep rfl (by simp [Place.Owns, Acquire.step])⟩
      · exact ⟨rfl, .keep rfl (by simp [Place.Owns, Acquire.step])⟩

/-- A hart that acquires goes on or is inside. -/
theorem Place.step_trying_ne_away {mtx mtx' : BitVec 32} (a : Acquire) :
    (Place.trying a).step mtx .acquire ≠ some (mtx', .away) := by
  simp only [Place.step, ne_eq, Option.some.injEq, Prod.mk.injEq, not_and]
  cases (a.step mtx).2 <;> simp

namespace Guarded

variable {owner : Option ι} {mtx mtx' : BitVec 32} {places : ι → Place}

omit [DecidableEq ι] in
theorem zero_or_one (inv : Guarded owner mtx places) : mtx = 0 ∨ mtx = 1 := by
  rw [inv.word]
  split
  · exact .inl rfl
  · exact .inr rfl

omit [DecidableEq ι] in
theorem free_iff (inv : Guarded owner mtx places) : mtx = 0 ↔ owner = none := by
  rw [inv.word]
  split
  · next free => simp [free]
  · next held => simp [held]

/-- **One hart moves**, and the lock it stands for moves with it or not at all. -/
theorem update (inv : Guarded owner mtx places) {i : ι} {p : Place} (carries : p.Carries)
    (change : Change mtx mtx' (places i) p) :
    ∃ owner', Guarded owner' mtx' (Function.update places i p) ∧
      (owner' = owner ∨ lock.step i owner = some owner') := by
  have carried : ∀ j, (Function.update places i p j).Carries :=
    forall_update (fun _ (p : Place) => p.Carries) carries fun j _ => inv.carries j
  cases change with
  | keep word same =>
    refine ⟨owner, ⟨carried, word.trans inv.word, ?_⟩, .inl rfl⟩
    exact forall_update (fun j (p : Place) => p.Owns ↔ owner = some j)
      (same.trans (inv.owns i)) fun j _ => inv.owns j
  | take free word owns =>
    obtain rfl := inv.free_iff.mp free
    refine ⟨some i, ⟨carried, word, ?_⟩, .inr rfl⟩
    refine forall_update (fun j (p : Place) => p.Owns ↔ some i = some j) (by simp [owns])
      fun j apart => ?_
    simp [inv.owns j, Ne.symm apart]
  | give owns word out =>
    obtain rfl := (inv.owns i).mp owns
    refine ⟨none, ⟨carried, word, ?_⟩, .inr (if_pos rfl)⟩
    refine forall_update (fun j (p : Place) => p.Owns ↔ none = some j) (by simp [out])
      fun j apart => ?_
    simp [inv.owns j, Ne.symm apart]

/-- One instruction of one hart. -/
theorem step (inv : Guarded owner mtx places) {i : ι} {m : Move} {p : Place}
    (taken : (places i).step mtx m = some (mtx', p)) :
    ∃ owner', Guarded owner' mtx' (Function.update places i p) ∧
      (owner' = owner ∨ lock.step i owner = some owner') :=
  have ⟨carries, change⟩ := Place.step_change (inv.carries i) inv.zero_or_one taken
  inv.update carries change

end Guarded

/-! ## Runs -/

theorem mutex_step {s t : State ι} {i : ι} {m : Move} (taken : mutex.step (i, m) s = some t) :
    ∃ p, (s.harts i).step s.mtx m = some (t.mtx, p) ∧ t.harts = Function.update s.harts i p := by
  obtain ⟨⟨mtx, p⟩, stepped, rfl⟩ := Option.map_eq_some_iff.mp taken
  exact ⟨p, stepped, rfl⟩

omit [DecidableEq ι] in
theorem guarded_start : Guarded none 0 (start : State ι).harts :=
  ⟨fun _ => trivial, rfl, fun _ => by simp [start, Place.Owns]⟩

theorem guarded_reachable {s : State ι} (reached : mutex.Reachable start s) :
    ∃ owner, Guarded owner s.mtx s.harts := by
  refine reached.invariant (fun s => ∃ owner, Guarded owner s.mtx s.harts)
    ⟨none, guarded_start⟩ ?_
  rintro s ⟨i, m⟩ t ⟨owner, inv⟩ - taken
  obtain ⟨p, stepped, moved⟩ := mutex_step taken
  obtain ⟨owner', after, -⟩ := inv.step stepped
  exact ⟨owner', by rwa [moved]⟩

/-- **The two routines and the release are one lock.**  In whatever order the instructions of
the harts interleave, the word is zero exactly while nobody owns the lock, only its owner is
behind an acquire, and each instruction leaves the lock alone, takes it when it is free, or
gives the hart's own lock back. -/
theorem mutex_refines_lock {s : State ι} (reached : mutex.Reachable start s) :
    ∃ owner, (s.mtx = 0 ↔ owner = none) ∧ (∀ i, s.harts i = .inside → owner = some i) ∧
      ∀ i m t, mutex.step (i, m) s = some t →
        ∃ owner', (t.mtx = 0 ↔ owner' = none) ∧ (∀ j, t.harts j = .inside → owner' = some j) ∧
          (owner' = owner ∨ lock.step i owner = some owner') := by
  obtain ⟨owner, inv⟩ := guarded_reachable reached
  refine ⟨owner, inv.free_iff, fun i inside => (inv.owns i).mp (.inl inside), ?_⟩
  intro i m t taken
  obtain ⟨p, stepped, moved⟩ := mutex_step taken
  obtain ⟨owner', after, moves⟩ := inv.step stepped
  rw [← moved] at after
  exact ⟨owner', after.free_iff, fun j inside => (after.owns j).mp (.inl inside), moves⟩

/-- Two harts, one at either routine: the second reads a one and waits. -/
theorem mutex_refines_lock_two :
    ∃ s : State Bool, s.harts false = .inside ∧ s.harts true = .trying .lw ∧
    ∃ owner, (s.mtx = 0 ↔ owner = none) ∧ (∀ i, s.harts i = .inside → owner = some i) ∧
      ∀ i m t, mutex.step (i, m) s = some t →
        ∃ owner', (t.mtx = 0 ↔ owner' = none) ∧ (∀ j, t.harts j = .inside → owner' = some j) ∧
          (owner' = owner ∨ lock.step i owner = some owner') :=
  ⟨_, rfl, rfl, mutex_refines_lock (mutex.reachable_run [(false, .call snrtMutexAcquire),
    (true, .call snrtMutexTtasAcquire), (false, .acquire), (true, .acquire), (false, .acquire),
    (true, .acquire)] rfl)⟩

section Progress

variable {i : ι}

/-- Alone, the hart is inside after `k` instructions. -/
def Enters (i : ι) (k : Nat) (s : State ι) : Prop :=
  ∃ t, mutex.run s (List.replicate k (i, .acquire)) = some t ∧ t.harts i = .inside

theorem Enters.step {k : Nat} {s : State ι} {a : Acquire} (tries : s.harts i = .trying a)
    (enters : Enters i k ⟨(a.step s.mtx).1,
      Function.update s.harts i ((a.step s.mtx).2.elim .inside .trying)⟩) :
    Enters i (k + 1) s := by
  obtain ⟨t, ran, inside⟩ := enters
  refine ⟨t, ?_, inside⟩
  have stepped : mutex.step (i, .acquire) s = some ⟨(a.step s.mtx).1,
      Function.update s.harts i ((a.step s.mtx).2.elim .inside .trying)⟩ := by
    simp [mutex, tries, Place.step]
  rw [List.replicate_succ, Interleaving.run, stepped]
  exact ran

theorem enters_swap {s : State ι} (free : s.mtx = 0) (tries : s.harts i = .trying (.amoswap 1)) :
    Enters i 2 s := by
  refine .step tries (.step (Function.update_self ..) ⟨_, rfl, ?_⟩)
  simp [Acquire.step, free]

theorem enters_read {s : State ι} (free : s.mtx = 0) (tries : s.harts i = .trying .lw) :
    Enters i 4 s := by
  refine .step tries (.step (Function.update_self ..) (enters_swap free ?_))
  simp [Acquire.step, free]

/-- **A free lock is never missed**: a hart that tries while the word is zero and is left alone
is behind its acquire after at most five instructions. -/
theorem free_entered {s : State ι} (reached : mutex.Reachable start s) (free : s.mtx = 0)
    {a : Acquire} (tries : s.harts i = .trying a) : ∃ k ≤ 5, Enters i k s := by
  obtain ⟨owner, inv⟩ := guarded_reachable reached
  have carries := inv.carries i
  rw [tries] at carries
  cases a with
  | lw => exact ⟨4, by omega, enters_read free tries⟩
  | bnezRead t0 =>
    by_cases zero : t0 = 0
    · refine ⟨3, by omega, .step tries (enters_swap free ?_)⟩
      simp [Acquire.step, zero]
    · refine ⟨5, by omega, .step tries (enters_read free ?_)⟩
      simpa [Acquire.step] using zero
  | amoswap t0 =>
    obtain rfl : t0 = 1 := carries
    exact ⟨2, by omega, enters_swap free tries⟩
  | bnezSwap t0 =>
    rcases carries with rfl | rfl
    · have owns := (inv.owns i).mp (.inr tries)
      rw [inv.free_iff.mp free] at owns
      cases owns
    · exact ⟨3, by omega, .step tries (enters_swap free (Function.update_self ..))⟩

/-- The second hart finds the lock that the first has given back. -/
theorem free_entered_released : ∃ s : State Bool, ∃ k ≤ 5, Enters true k s :=
  ⟨_, free_entered (mutex.reachable_run [(false, .call snrtMutexAcquire),
    (false, .acquire), (true, .call snrtMutexAcquire), (true, .acquire), (true, .acquire),
    (false, .acquire), (false, .release)] rfl) rfl rfl⟩

end Progress

end SnitchCluster.Runtime.Mutex
