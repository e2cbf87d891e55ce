/-
# Runtime.PartialBarrier -- the software barrier on a counter and an iteration word

`snrt_partial_barrier` remembers the iteration, adds itself to the counter, and
either, as the last of `n`, resets the counter and bumps the iteration, or spins
until the iteration has moved.  Each access of the shared words is one step, and
the harts step in any order.

The last hart of a round resets the counter while every other hart of the round
still spins, and harts only come back after the bump, so the two writes of a release
are never seen apart: `Inv` says so relative to the number `round` of rounds
released.  Nothing compares iterations for order, so the word may wrap.
-/
import SnitchCluster.Theory.Interleaving

namespace SnitchCluster.Runtime.PartialBarrier

open Theory

/-- `snrt_barrier_t`. -/
structure SnrtBarrier where
  cnt : BitVec 32
  iteration : BitVec 32
  deriving DecidableEq, Repr

/-- Where a hart is in `snrt_partial_barrier`. -/
inductive Pc
  | outside
  | readIteration
  | addCnt (prevIt : BitVec 32)
  | resetCnt
  | bumpIteration
  | spin (prevIt : BitVec 32)
  deriving DecidableEq, Repr

/-- A hart that calls the barrier over and over, and the calls it has returned from. -/
structure Hart where
  pc : Pc
  rounds : Nat
  deriving DecidableEq, Repr

/-- The harts, the barrier they share, and which hart released which round. -/
structure State (n : BitVec 32) where
  harts : Fin n.toNat → Hart
  barr : SnrtBarrier
  releases : List (Fin n.toNat × Nat)

/-- The next access of a hart. -/
def snrtPartialBarrier (n : BitVec 32) (barr : SnrtBarrier) (h : Hart) : Hart × SnrtBarrier :=
  match h.pc with
  | .outside => ({ h with pc := .readIteration }, barr)
  | .readIteration => ({ h with pc := .addCnt barr.iteration }, barr)
  | .addCnt prevIt =>
    let cnt := barr.cnt + 1
    ({ h with pc := if cnt = n then .resetCnt else .spin prevIt }, { barr with cnt })
  | .resetCnt => ({ h with pc := .bumpIteration }, { barr with cnt := 0 })
  | .bumpIteration =>
    ({ pc := .outside, rounds := h.rounds + 1 }, { barr with iteration := barr.iteration + 1 })
  | .spin prevIt =>
    (if prevIt = barr.iteration then h else { pc := .outside, rounds := h.rounds + 1 }, barr)

/-- `n` harts on one barrier.  A hart that finds itself the last one is recorded. -/
def partialBarrier (n : BitVec 32) : Interleaving (State n) (Fin n.toNat) where
  step i s :=
    let (hart, barr) := snrtPartialBarrier n s.barr (s.harts i)
    some {
      harts := Function.update s.harts i hart
      barr
      releases := if hart.pc = .resetCnt then s.releases ++ [(i, hart.rounds)] else s.releases }

/-- Nobody has called yet, and the barrier was cleared. -/
def start (n : BitVec 32) : State n where
  harts _ := { pc := .outside, rounds := 0 }
  barr := { cnt := 0, iteration := 0 }
  releases := []

namespace Hart

/-- The calls a hart has entered. -/
def entries (h : Hart) : Nat := h.rounds + if h.pc = .outside then 0 else 1

/-- The hart has added itself to the counter in its call number `r`. -/
def Arrived (r : Nat) (h : Hart) : Prop :=
  r < h.rounds ∨ r = h.rounds ∧
    match h.pc with
    | .resetCnt | .bumpIteration | .spin _ => True
    | _ => False

/-- The hart is the last of its round, and has not finished its release. -/
def Releases (h : Hart) : Prop := h.pc = .resetCnt ∨ h.pc = .bumpIteration

/-- The hart counts in the counter of round `r`. -/
def Counts (r : Nat) (h : Hart) : Prop :=
  h.rounds = r ∧
    match h.pc with
    | .resetCnt | .spin _ => True
    | _ => False

/-- The hart waits for the end of round `r`. -/
def Waits (r : Nat) (h : Hart) : Prop := h.rounds = r ∧ ∃ prevIt, h.pc = .spin prevIt

instance (r : Nat) : DecidablePred (Counts r) := fun h => by
  unfold Counts
  cases h.pc <;> infer_instance

/-- What a hart knows while `round` rounds have been released. -/
def Knows (round : Nat) (h : Hart) : Prop :=
  match h.pc with
  | .outside | .readIteration | .resetCnt | .bumpIteration => h.rounds = round
  | .addCnt prevIt => h.rounds = round ∧ prevIt = BitVec.ofNat 32 round
  | .spin prevIt =>
    prevIt = BitVec.ofNat 32 h.rounds ∧ (h.rounds = round ∨ h.rounds + 1 = round)

theorem Waits.counts {r : Nat} {h : Hart} (waits : h.Waits r) : h.Counts r := by
  obtain ⟨here, prevIt, spins⟩ := waits
  exact ⟨here, by rw [spins]; trivial⟩

theorem Waits.not_releases {r : Nat} {h : Hart} (waits : h.Waits r) : ¬h.Releases := by
  obtain ⟨-, prevIt, spins⟩ := waits
  rintro (other | other) <;> rw [spins] at other <;> cases other

theorem Counts.waits {r : Nat} {h : Hart} (counts : h.Counts r) (idle : ¬h.Releases) :
    h.Waits r := by
  obtain ⟨here, phase⟩ := counts
  refine ⟨here, ?_⟩
  cases pc : h.pc with
  | resetCnt => exact absurd (Or.inl pc) idle
  | spin prevIt => exact ⟨prevIt, rfl⟩
  | _ => rw [pc] at phase; exact phase.elim

/-- A hart is in round `round` or, at the barrier still, in the one before. -/
theorem Knows.rounds_le {round : Nat} {h : Hart} (knows : h.Knows round) :
    h.rounds ≤ round ∧ round ≤ h.entries := by
  unfold Knows at knows
  unfold entries
  cases pc : h.pc <;> simp only [pc] at knows ⊢ <;> simp <;> omega

end Hart

/-- What holds between two steps, `round` rounds having been released. -/
structure Inv {n : BitVec 32} (round : Nat) (s : State n) : Prop where
  iteration : s.barr.iteration = BitVec.ofNat 32 round
  knows : ∀ i, (s.harts i).Knows round
  /-- The two writes of a release see every other hart wait. -/
  alone : ∀ i, (s.harts i).Releases → ∀ j, j ≠ i → (s.harts j).Waits round
  counted : (∀ i, (s.harts i).pc ≠ .bumpIteration) →
    s.barr.cnt = BitVec.ofNat 32 (population (fun _ => Hart.Counts round) s.harts)
  cleared : ∀ i, (s.harts i).pc = .bumpIteration → s.barr.cnt = 0
  released : (∀ i, ¬(s.harts i).Releases) → s.releases.map Prod.snd = List.range round
  releasing : ∀ i, (s.harts i).Releases → s.releases.map Prod.snd = List.range (round + 1)

section Steps

variable {n : BitVec 32} {round : Nat} {s : State n}

/-- While a hart does not wait, nobody else releases. -/
theorem Inv.no_release (inv : Inv round s) {i : Fin n.toNat} (awake : ¬(s.harts i).Waits round)
    (idle : ¬(s.harts i).Releases) (j : Fin n.toNat) : ¬(s.harts j).Releases := by
  intro releases
  by_cases same : i = j
  · exact idle (same ▸ releases)
  · exact awake (inv.alone j releases i same)

/-- A hart moves, and neither before nor after is it waiting for the others or
releasing them. -/
theorem Inv.moves (inv : Inv round s) {i : Fin n.toNat} {h : Hart} {barr : SnrtBarrier}
    (awake : ¬(s.harts i).Waits round) (idle : ¬(s.harts i).Releases) (idle' : ¬h.Releases)
    (knows : h.Knows round) (iteration : barr.iteration = s.barr.iteration)
    (counted : barr.cnt =
      BitVec.ofNat 32 (population (fun _ => Hart.Counts round) (Function.update s.harts i h))) :
    Inv round { s with harts := Function.update s.harts i h, barr } := by
  have quiet := inv.no_release awake idle
  have still : ∀ j, ¬(Function.update s.harts i h j).Releases :=
    forall_update (fun _ (h : Hart) => ¬h.Releases) idle' fun j _ => quiet j
  exact {
    iteration := iteration.trans inv.iteration
    knows := forall_update (fun _ (h : Hart) => h.Knows round) knows fun j _ => inv.knows j
    alone := fun j releases => absurd releases (still j)
    counted := fun _ => counted
    cleared := fun j bump => absurd (Or.inr bump) (still j)
    released := fun _ => inv.released quiet
    releasing := fun j releases => absurd releases (still j) }

/-- What a hart finds that adds itself to the counter. -/
theorem Inv.arrives (inv : Inv round s) {i : Fin n.toNat} {prevIt : BitVec 32}
    (pc : (s.harts i).pc = .addCnt prevIt) :
    s.barr.cnt = BitVec.ofNat 32 (population (fun _ => Hart.Counts round) s.harts) ∧
      ¬(s.harts i).Counts round ∧ (∀ j, ¬(s.harts j).Releases) ∧ (s.harts i).rounds = round ∧
      prevIt = BitVec.ofNat 32 round ∧
      (s.barr.cnt + 1 = n ↔ population (fun _ => Hart.Counts round) s.harts + 1 = n.toNat) := by
  have out : ¬(s.harts i).Counts round := by
    rintro ⟨-, phase⟩
    rw [pc] at phase
    exact phase
  have idle : ¬(s.harts i).Releases := by
    rintro (other | other) <;> rw [pc] at other <;> cases other
  have quiet := inv.no_release (fun waits => out waits.counts) idle
  have count := inv.counted fun j bump => quiet j (Or.inr bump)
  have knows := inv.knows i
  simp only [Hart.Knows, pc] at knows
  refine ⟨count, out, quiet, knows.1, knows.2, ?_⟩
  rw [count]
  apply counter_eq_iff
  simpa using population_lt (p := fun _ => Hart.Counts round) out

/-- The counter counts the hart that has just arrived. -/
theorem cnt_arrived {i : Fin n.toNat} {h : Hart}
    (count : s.barr.cnt = BitVec.ofNat 32 (population (fun _ => Hart.Counts round) s.harts))
    (out : ¬(s.harts i).Counts round) (counts : h.Counts round) :
    s.barr.cnt + 1 =
      BitVec.ofNat 32 (population (fun _ => Hart.Counts round) (Function.update s.harts i h)) := by
  have moved := population_update (p := fun _ => Hart.Counts round) s.harts i h
  rw [if_neg out, if_pos counts, Nat.add_zero] at moved
  rw [count, moved, BitVec.ofNat_add]
  rfl

section

variable (inv : Inv round s) {i : Fin n.toNat}

include inv

/-- A hart that is not the last one waits. -/
theorem Inv.waits {prevIt : BitVec 32} (pc : (s.harts i).pc = .addCnt prevIt) :
    Inv round { s with harts := Function.update s.harts i { s.harts i with pc := .spin prevIt }
                       barr := { s.barr with cnt := s.barr.cnt + 1 } } := by
  obtain ⟨count, out, quiet, here, snapshot, -⟩ := inv.arrives pc
  refine inv.moves (fun waits => out waits.counts) (quiet i) ?_ ?_ rfl
    (cnt_arrived count out ⟨here, trivial⟩)
  · rintro (other | other) <;> cases other
  · exact ⟨by rw [snapshot, here], Or.inl here⟩

/-- The last hart of a round finds all others waiting. -/
theorem Inv.last {prevIt : BitVec 32}
    (pc : (s.harts i).pc = .addCnt prevIt) (full : s.barr.cnt + 1 = n) :
    Inv round { harts := Function.update s.harts i { s.harts i with pc := .resetCnt }
                barr := { s.barr with cnt := s.barr.cnt + 1 }
                releases := s.releases ++ [(i, (s.harts i).rounds)] } := by
  obtain ⟨count, out, quiet, here, -, all⟩ := inv.arrives pc
  have others := population_others (fun _ => True) trivial out (fun _ _ => trivial) (by
    rw [all.mp full]
    simp)
  have waits : ∀ j, j ≠ i → (s.harts j).Waits round := fun j away =>
    (others j trivial away).waits (quiet j)
  have recorded : (s.releases ++ [(i, (s.harts i).rounds)]).map Prod.snd = List.range (round + 1) := by
    rw [List.map_append, inv.released quiet, List.range_succ, ← here]
    rfl
  exact {
    iteration := inv.iteration
    knows := forall_update (fun _ (h : Hart) => h.Knows round) here fun j _ => inv.knows j
    alone := forall_update (fun j (h : Hart) => h.Releases → ∀ k, k ≠ j →
        (Function.update s.harts i { s.harts i with pc := .resetCnt } k).Waits round)
      (fun _ k away => by rw [Function.update_of_ne away]; exact waits k away)
      (fun j _ releases => absurd releases (quiet j))
    counted := fun _ => cnt_arrived count out ⟨here, trivial⟩
    cleared := forall_update (fun _ (h : Hart) => h.pc = .bumpIteration → s.barr.cnt + 1 = 0)
      (fun bump => by cases bump) (fun j _ bump => absurd (Or.inr bump) (quiet j))
    released := fun none => absurd (Or.inl (congrArg Hart.pc (Function.update_self i _ s.harts))) (none i)
    releasing := fun _ _ => recorded }

/-- The first write of a release. -/
theorem Inv.resets (pc : (s.harts i).pc = .resetCnt) :
    Inv round { s with harts := Function.update s.harts i { s.harts i with pc := .bumpIteration }
                       barr := { s.barr with cnt := 0 } } := by
  have others := inv.alone i (Or.inl pc)
  have knows := inv.knows i
  simp only [Hart.Knows, pc] at knows
  exact {
    iteration := inv.iteration
    knows := forall_update (fun _ (h : Hart) => h.Knows round) knows fun j _ => inv.knows j
    alone := forall_update (fun j (h : Hart) => h.Releases → ∀ k, k ≠ j →
        (Function.update s.harts i { s.harts i with pc := .bumpIteration } k).Waits round)
      (fun _ k away => by rw [Function.update_of_ne away]; exact others k away)
      (fun j away releases => absurd releases (others j away).not_releases)
    counted := fun never => absurd (congrArg Hart.pc (Function.update_self i _ s.harts)) (never i)
    cleared := fun _ _ => rfl
    released := fun none => absurd (Or.inr (congrArg Hart.pc (Function.update_self i _ s.harts))) (none i)
    releasing := fun _ _ => inv.releasing i (Or.inl pc) }

/-- The second write of a release ends the round. -/
theorem Inv.bumps (pc : (s.harts i).pc = .bumpIteration) : Inv (round + 1)
      { s with harts := Function.update s.harts i { pc := .outside, rounds := (s.harts i).rounds + 1 }
               barr := { s.barr with iteration := s.barr.iteration + 1 } } := by
  have others := inv.alone i (Or.inr pc)
  have knows := inv.knows i
  simp only [Hart.Knows, pc] at knows
  set h : Hart := { pc := .outside, rounds := (s.harts i).rounds + 1 }
  have quiet : ∀ j, ¬(Function.update s.harts i h j).Releases :=
    forall_update (fun _ (h : Hart) => ¬h.Releases) (by rintro (other | other) <;> cases other)
      fun j away => (others j away).not_releases
  have none : population (fun _ => Hart.Counts (round + 1)) (Function.update s.harts i h) = 0 := by
    refine population_eq_zero.mpr (forall_update (fun _ (h : Hart) => ¬h.Counts (round + 1))
      (fun counts => counts.2) fun j away counts => ?_)
    have here := (others j away).1
    have there := counts.1
    omega
  exact {
    iteration := by
      rw [BitVec.ofNat_add, ← inv.iteration]
      rfl
    knows := forall_update (fun _ (h : Hart) => h.Knows (round + 1)) (congrArg (· + 1) knows)
      fun j away => by
        obtain ⟨here, prevIt, spins⟩ := others j away
        have before := inv.knows j
        simp only [Hart.Knows, spins] at before ⊢
        exact ⟨before.1, Or.inr (congrArg (· + 1) here)⟩
    alone := fun j releases => absurd releases (quiet j)
    counted := fun _ => by
      rw [none]
      exact inv.cleared i pc
    cleared := fun j bump => absurd (Or.inr bump) (quiet j)
    released := fun _ => inv.releasing i (Or.inr pc)
    releasing := fun j releases => absurd releases (quiet j) }

/-- A hart that does not count, before and after, leaves the counter right. -/
theorem Inv.counted_still {h : Hart}
    (before : ¬(s.harts i).Counts round) (idle : ¬(s.harts i).Releases) (after : ¬h.Counts round) :
    s.barr.cnt = BitVec.ofNat 32 (population (fun _ => Hart.Counts round) (Function.update s.harts i h)) := by
  have quiet := inv.no_release (fun waits => before waits.counts) idle
  have moved := population_update (p := fun _ => Hart.Counts round) s.harts i h
  rw [if_neg before, if_neg after] at moved
  rw [inv.counted fun j bump => quiet j (Or.inr bump)]
  exact congrArg _ moved.symm

/-- **One access of one hart.** -/
theorem Inv.step {t : State n}
    (taken : (partialBarrier n).step i s = some t) : ∃ round', Inv round' t := by
  simp only [partialBarrier, Option.some.injEq] at taken
  subst taken
  have knows := inv.knows i
  unfold snrtPartialBarrier
  cases pc : (s.harts i).pc with
  | outside | readIteration =>
    simp only [Hart.Knows, pc] at knows
    have out : ¬(s.harts i).Counts round := fun counts => by simpa [pc] using counts.2
    have idle : ¬(s.harts i).Releases := by simp [Hart.Releases, pc]
    refine ⟨round, inv.moves (fun waits => out waits.counts) idle (by simp [Hart.Releases]) ?_ rfl
      (inv.counted_still out idle fun counts => counts.2)⟩
    first | exact knows | exact ⟨knows, inv.iteration⟩
  | addCnt prevIt =>
    by_cases full : s.barr.cnt + 1 = n
    · simp only [if_pos full]
      exact ⟨round, inv.last pc full⟩
    · simp only [if_neg full]
      exact ⟨round, inv.waits pc⟩
  | resetCnt => exact ⟨round, inv.resets pc⟩
  | bumpIteration => exact ⟨round + 1, inv.bumps pc⟩
  | spin prevIt =>
    simp only [Hart.Knows, pc] at knows
    by_cases same : prevIt = s.barr.iteration
    · simp only [if_pos same, Function.update_eq_self, pc]
      exact ⟨round, inv⟩
    · simp only [if_neg same]
      -- the iteration has moved, so the round the hart waits for is over
      have ended : (s.harts i).rounds + 1 = round := by
        rcases knows.2 with now | ended
        · exact absurd (knows.1.trans (by rw [now, inv.iteration])) same
        · exact ended
      have out : ¬(s.harts i).Counts round := fun counts => by
        have here := counts.1
        omega
      have idle : ¬(s.harts i).Releases := by simp [Hart.Releases, pc]
      refine ⟨round, inv.moves (fun waits => out waits.counts) idle (by simp [Hart.Releases]) ?_ rfl
        (inv.counted_still out idle fun counts => counts.2)⟩
      exact ended

end

end Steps

theorem Inv.start (n : BitVec 32) : Inv 0 (start n) where
  iteration := rfl
  knows _ := rfl
  alone _ releases := by rcases releases with other | other <;> cases other
  counted _ := by
    rw [population_eq_zero.mpr fun _ counts => counts.2]
    rfl
  cleared _ _ := rfl
  released _ := rfl
  releasing _ releases := by rcases releases with other | other <;> cases other

theorem exists_inv {n : BitVec 32} {s : State n} (reached : (partialBarrier n).Reachable (start n) s) :
    ∃ round, Inv round s :=
  reached.invariant (fun s => ∃ round, Inv round s) ⟨0, .start n⟩
    fun _ _ _ ⟨_, inv⟩ _ taken => inv.step taken

/-- Where a round has started and nobody has arrived yet, the counter is clear. -/
theorem Inv.cnt_clear {n : BitVec 32} {round : Nat} {s : State n} (inv : Inv round s)
    {i : Fin n.toNat} {r : Nat} (entered : (s.harts i).entries = r + 1)
    (early : ∀ j, ¬(s.harts j).Arrived r) : s.barr.cnt = 0 := by
  have first := early i
  have current : r = round := by
    have knows := inv.knows i
    unfold Hart.Knows at knows
    unfold Hart.entries at entered
    unfold Hart.Arrived at first
    cases pc : (s.harts i).pc <;> simp [pc] at knows entered first <;> omega
  by_cases bump : ∃ j, (s.harts j).pc = .bumpIteration
  · obtain ⟨j, bump⟩ := bump
    exact inv.cleared j bump
  · have counted := inv.counted fun j here => bump ⟨j, here⟩
    rw [counted, population_eq_zero.mpr]
    · rfl
    · rintro j ⟨here, phase⟩
      refine early j (Or.inr ⟨current.trans here.symm, ?_⟩)
      cases pc : (s.harts j).pc <;> simp_all

/-- **The barrier separates rounds.**  However the accesses of `n` harts interleave,
no hart has returned from more calls than every hart has entered, no round is released
twice, and a round that nobody has arrived in finds the counter clear. -/
theorem rounds_separated (n : BitVec 32) {s : State n}
    (reached : (partialBarrier n).Reachable (start n) s) :
    (∀ i j, (s.harts i).rounds ≤ (s.harts j).entries) ∧
      (s.releases.map Prod.snd).Nodup ∧
      ∀ i r, (s.harts i).entries = r + 1 → (∀ j, ¬(s.harts j).Arrived r) → s.barr.cnt = 0 := by
  obtain ⟨round, inv⟩ := exists_inv reached
  refine ⟨fun i j => ?_, ?_, fun i r entered early => inv.cnt_clear entered early⟩
  · exact (inv.knows i).rounds_le.1.trans (inv.knows j).rounds_le.2
  · by_cases releases : ∃ i, (s.harts i).Releases
    · obtain ⟨i, releases⟩ := releases
      rw [inv.releasing i releases]
      exact List.nodup_range
    · rw [inv.released fun i here => releases ⟨i, here⟩]
      exact List.nodup_range

/-- The second of two harts is back at the barrier while the first still spins in the
round before. -/
def overtaking : List (Fin (2 : BitVec 32).toNat) :=
  let slow := ⟨0, Nat.two_pos⟩
  let fast := ⟨1, Nat.one_lt_two⟩
  [slow, slow, slow, fast, fast, fast, fast, fast, fast, fast, fast]

def overtaken : State 2 := ((partialBarrier 2).run (start 2) overtaking).getD (start 2)

theorem rounds_separated_overtaken :
    (overtaken.harts ⟨1, by decide⟩).rounds = 1 ∧ (overtaken.harts ⟨0, by decide⟩).pc = .spin 0 ∧
      overtaken.barr.cnt = 1 ∧ (overtaken.releases.map Prod.snd).Nodup :=
  have reached : (partialBarrier 2).Reachable (start 2) overtaken :=
    (partialBarrier 2).reachable_run overtaking rfl
  ⟨rfl, rfl, rfl, (rounds_separated 2 reached).2.1⟩

end SnitchCluster.Runtime.PartialBarrier
