/-
# Runtime.StatusRequests -- what the data mover answers

A hart writes its request into `stat_q`, wakes the DM core and waits for `stat_pvalid`; the
lock keeps the askers apart, but not an asker from the DM core, which raises `stat_pvalid`
before it clears `stat_q`: a request that is written in between is cleared unread
(`status_lost`).  `dm_exit` takes no lock, and waits for a sleep that the DM core does not
enter any more if it sees the request first.

`Allowed` keeps clear of both, and of the full queue of `Runtime.TaskQueue`.  `Status` says
which of the two answers a waiting hart is between (`Asked`), that the DM core raises
`stat_pvalid` for a hart that waits only, and that all harts are done once `dm_exit` has
written its request.
-/
import SnitchCluster.Runtime.TaskQueue

namespace SnitchCluster.Runtime.StatusRequests

open Theory TaskQueue

/-! ## Where a request may be written -/

/-- Between `stat_pvalid = 1` and `stat_q = 0`. -/
def Clears : DmPc → Prop
  | .clearStat => True
  | _ => False

/-- Past the last look at `stat_q`, on the way to sleep or asleep. -/
def Sleeps : DmPc → Prop
  | .incWfi | .wfi => True
  | _ => False

/-- On the way out of the loop. -/
def Leaves : DmPc → Prop
  | .sleepFill | .sleepStat | .exited => True
  | _ => False

instance (pc : DmPc) : Decidable (Clears pc) := by unfold Clears; split <;> infer_instance

instance (pc : DmPc) : Decidable (Sleeps pc) := by unfold Sleeps; split <;> infer_instance

/-- A hart that has made all its calls. -/
def Done (h : Hart) : Prop := h = { pc := .idle, todo := [] }

instance (h : Hart) : Decidable (Done h) := inferInstanceAs (Decidable (h = _))

/-- No request is written while the DM core still clears the last one, and `dm_exit` comes
last, to a DM core that sleeps or is about to. -/
def RequestHolds {n : Nat} (s : State n) : Label n → Prop
  | .hart i =>
    match (s.harts i).pc with
    | .request _ => ¬Clears s.dm.pc
    | .requestExit => Sleeps s.dm.pc ∧ s.shared.clint = false ∧ (s.harts i).todo = [] ∧
        ∀ j, j ≠ i → Done (s.harts j)
    | _ => True
  | _ => True

instance {n : Nat} (s : State n) : ∀ l : Label n, Decidable (RequestHolds s l)
  | .hart i => by
    have holds : ∀ pc : HartPc, Decidable (match pc with
        | .request _ => ¬Clears s.dm.pc
        | .requestExit => Sleeps s.dm.pc ∧ s.shared.clint = false ∧ (s.harts i).todo = [] ∧
            ∀ j, j ≠ i → Done (s.harts j)
        | _ => True) := by
      intro pc
      cases pc <;> infer_instance
    exact holds _
  | .dm | .engine => instDecidableTrue

def Allowed {n : Nat} (s : State n) (l : Label n) : Prop := TestHolds s l ∧ RequestHolds s l

instance {n : Nat} (s : State n) (l : Label n) : Decidable (Allowed s l) :=
  inferInstanceAs (Decidable (_ ∧ _))

/-! ## Whose tasks are through -/

section Before

variable {n : Nat} {queued : List (Fin n × Copy)} {i j : Fin n} {count count' : Nat}

/-- The tasks of hart `i` are among the first `count`. -/
def Before (queued : List (Fin n × Copy)) (i : Fin n) (count : Nat) : Prop :=
  ∀ q ∈ queued.drop count, q.1 ≠ i

theorem Before.mono (before : Before queued i count) (le : count ≤ count') :
    Before queued i count' := by
  intro q later
  rw [← Nat.add_sub_cancel' le, ← List.drop_drop] at later
  exact before q (List.mem_of_mem_drop later)

theorem before_all (all : queued.length ≤ count) : Before queued i count := by
  rw [Before, List.drop_eq_nil_of_le all]
  simp

/-- Another hart queues a task. -/
theorem Before.append (before : Before queued i count) (apart : j ≠ i) (new : Option Copy) :
    Before (queued ++ new.toList.map (j, ·)) i count := by
  intro q later
  rw [List.drop_append] at later
  rcases List.mem_append.mp later with old | fresh
  · exact before q old
  · obtain ⟨c, -, rfl⟩ := List.mem_map.mp (List.mem_of_mem_drop fresh)
    exact apart

end Before

/-! ## The invariant -/

/-- The hart has written its request and not yet seen the answer. -/
def asker : HartPc → Option Asker
  | .wakeLoad (.ask a) | .wakeSet (.ask a) | .waitPvalid a => some a
  | _ => none

/-- The hart is in `dm_wait` and has seen the queue empty. -/
def Settled : HartPc → Prop
  | .waitStat | .lockAsk .dmWait | .clearPvalid .dmWait | .request .dmWait
  | .wakeLoad (.ask .dmWait) | .wakeSet (.ask .dmWait) | .waitPvalid .dmWait => True
  | _ => False

/-- The request is still there, or it has been answered. -/
def Asked {n : Nat} (s : State n) (i : Fin n) (a : Asker) : Prop :=
  s.shared.statPvalid = false ∧ s.shared.statQ = some a.statQ ∧ ¬Clears s.dm.pc ∨
    s.shared.statPvalid = true ∧ (s.shared.statQ = none ∨ Clears s.dm.pc) ∧
      (a = .dmWait → Before s.queued i s.engine.completed)

structure HartOk {n : Nat} (s : State n) (i : Fin n) (pc : HartPc) : Prop where
  asks : ∀ a, asker pc = some a → Asked s i a
  fresh : ∀ a, pc = .request a → s.shared.statPvalid = false
  settled : Settled pc → Before s.queued i s.engine.issued.length
  through : pc = .releaseAsk .dmWait → Before s.queued i s.engine.completed
  woken : ∀ a, pc = .waitPvalid a → s.shared.statPvalid = false → Sleeps s.dm.pc →
    s.shared.clint = true

/-- Some hart waits for the answer. -/
def Waits {n : Nat} (s : State n) (i : Fin n) (a : Asker) : Prop :=
  asker (s.harts i).pc = some a ∧ s.shared.statPvalid = false

/-- The hart in `dm_exit`, as long as it may wait for the DM core. -/
def Exiting {n : Nat} (s : State n) (i : Fin n) : Prop :=
  (s.harts i).todo = [] ∧
    ((s.harts i).pc = .wakeLoad .dmExit ∨ (s.harts i).pc = .wakeSet .dmExit) ∧
    Sleeps s.dm.pc ∧ s.shared.clint = false

/-- **The invariant of the requests.** -/
structure Status {n : Nat} (s : State n) : Prop where
  harts : ∀ i, HartOk s i (s.harts i).pc
  busy : s.dm.pc = .testBusy → ∃ i, Waits s i .dmWait
  sets : s.dm.pc = .setPvalid →
    ∃ i a, Waits s i a ∧ (a = .dmWait → Before s.queued i s.engine.completed)
  pending : ∀ r, s.shared.statQ = some r → r = .exit ∨ Clears s.dm.pc ∨ ∃ i a, Waits s i a
  exits : s.shared.statQ = some .exit →
    ∃ i, (∀ j, j ≠ i → Done (s.harts j)) ∧ (Done (s.harts i) ∨ Exiting s i)
  leaves : s.dm.doExit = true ∨ s.dm.pc = .exited →
    s.shared.statQ = some .exit ∧ Leaves s.dm.pc

/-! ## Steps of the harts -/

section Harts

variable {n : Nat} {s : State n} {i j : Fin n} {h : Hart} {sh : Shared} {new : Option Copy}

/-- The state after a step of hart `i`. -/
abbrev moved (s : State n) (i : Fin n) (h : Hart) (sh : Shared) (new : Option Copy) : State n :=
  { s with shared := sh, harts := Function.update s.harts i h
           queued := s.queued ++ new.toList.map (i, ·) }

theorem locked_of_asker {pc : HartPc} {a : Asker} (asks : asker pc = some a) : Locked pc := by
  unfold asker at asks
  split at asks
  · trivial
  · trivial
  · trivial
  · cases asks

/-- What a hart knows outlasts the steps of another. -/
theorem HartOk.other (ok : HartOk s j (s.harts j).pc) (apart : i ≠ j)
    (words : Locked (s.harts j).pc →
      sh.statQ = s.shared.statQ ∧ sh.statPvalid = s.shared.statPvalid)
    (clint : s.shared.clint = true → sh.clint = true) :
    HartOk (moved s i h sh new) j (s.harts j).pc where
  asks a asks := by
    obtain ⟨statQ, pvalid⟩ := words (locked_of_asker asks)
    unfold Asked
    simp only [statQ, pvalid]
    rcases ok.asks a asks with open_ | ⟨set, gone, through⟩
    · exact Or.inl open_
    · exact Or.inr ⟨set, gone, fun waits => (through waits).append apart new⟩
  fresh a at_ := by
    obtain ⟨-, pvalid⟩ := words (at_ ▸ trivial)
    simp only [pvalid]
    exact ok.fresh a at_
  settled in_ := (ok.settled in_).append apart new
  through at_ := (ok.through at_).append apart new
  woken a at_ closed sleeps := by
    obtain ⟨-, pvalid⟩ := words (at_ ▸ trivial)
    simp only [pvalid] at closed
    exact clint (ok.woken a at_ closed sleeps)

theorem waits_moved {i' : Fin n} {a : Asker} (asks : asker h.pc = asker (s.harts i).pc)
    (pvalid : sh.statPvalid = s.shared.statPvalid) :
    Waits (moved s i h sh new) i' a ↔ Waits s i' a := by
  unfold Waits
  by_cases at_ : i' = i
  · subst at_
    simp only [Function.update_self, asks, pvalid]
  · simp only [Function.update_of_ne at_, pvalid]

/-- A hart that moves without touching the requests. -/
theorem Status.quiet (st : Status s) (running : s.shared.statQ ≠ some .exit)
    (statQ : sh.statQ = s.shared.statQ) (pvalid : sh.statPvalid = s.shared.statPvalid)
    (clint : s.shared.clint = true → sh.clint = true)
    (asks : asker h.pc = asker (s.harts i).pc) (keeps : new = none ∨ asker h.pc = none)
    (ok : HartOk (moved s i h sh new) i h.pc) : Status (moved s i h sh new) := by
  have queued : ∀ {i' : Fin n} {a : Asker} {count : Nat}, Waits s i' a → Before s.queued i' count →
      Before (moved s i h sh new).queued i' count := by
    intro i' a count waits before
    by_cases at_ : i' = i
    · subst at_
      rcases keeps with rfl | none
      · simpa using before
      · exact absurd (waits.1.symm.trans (asks.symm.trans none)) (by simp)
    · exact before.append (Ne.symm at_) new
  refine ⟨?_, fun pc => ?_, fun pc => ?_, fun r set => ?_, fun exits => ?_, fun leaves => ?_⟩
  · exact forall_update (fun j (h : Hart) => HartOk _ j h.pc) ok
      fun j apart => (st.harts j).other (Ne.symm apart) (fun _ => ⟨statQ, pvalid⟩) clint
  · obtain ⟨i', waits⟩ := st.busy pc
    exact ⟨i', (waits_moved asks pvalid).mpr waits⟩
  · obtain ⟨i', a, waits, through⟩ := st.sets pc
    exact ⟨i', a, (waits_moved asks pvalid).mpr waits, fun is => queued waits (through is)⟩
  · simp only [statQ] at set
    rcases st.pending r set with exit | clears | ⟨i', a, waits⟩
    · exact Or.inl exit
    · exact Or.inr (Or.inl clears)
    · exact Or.inr (Or.inr ⟨i', a, (waits_moved asks pvalid).mpr waits⟩)
  · simp only [statQ] at exits
    exact absurd exits running
  · exact absurd (st.leaves leaves).1 running

theorem not_locked_of_done {h : Hart} (done : Done h) : ¬Locked h.pc := by
  rw [done]
  exact id

/-- The hart that holds the lock does not wait, so none does. -/
theorem not_waits (lock : Exclusive s) (locked : Locked (s.harts i).pc)
    (none : asker (s.harts i).pc = none) (i' : Fin n) (a : Asker) : ¬Waits s i' a := by
  intro waits
  obtain rfl := lock.one i' i (locked_of_asker waits.1) locked
  exact absurd (waits.1.symm.trans none) (by simp)

/-- While nobody waits the DM core is not about to answer. -/
theorem Status.unasked (st : Status s) (nobody : ∀ i a, ¬Waits s i a) : s.dm.pc ≠ .testBusy ∧
    s.dm.pc ≠ .setPvalid ∧ ∀ r, s.shared.statQ = some r → r = .exit ∨ Clears s.dm.pc := by
  refine ⟨fun busy => ?_, fun sets => ?_, fun r set => ?_⟩
  · obtain ⟨i, waits⟩ := st.busy busy
    exact nobody i _ waits
  · obtain ⟨i, a, waits, -⟩ := st.sets sets
    exact nobody i a waits
  · exact (st.pending r set).imp_right fun late =>
      late.resolve_right fun ⟨i, a, waits⟩ => nobody i a waits

/-- A hart that is not in `dm_exit` moves only while nobody has asked for the exit. -/
theorem Status.running (st : Status s) (taken : hartStep s.shared (s.harts i) = some (h, sh, new))
    (load : (s.harts i).pc ≠ .wakeLoad .dmExit) (set : (s.harts i).pc ≠ .wakeSet .dmExit) :
    s.shared.statQ ≠ some .exit := by
  intro exit
  have stuck : ¬Done (s.harts i) := by
    intro done
    rw [done] at taken
    cases taken
  obtain ⟨k, others, last⟩ := st.exits exit
  by_cases at_ : i = k
  · subst at_
    rcases last with done | ⟨-, pc | pc, -⟩
    · exact stuck done
    · exact load pc
    · exact set pc
  · exact stuck (others i at_)

/-- An asker clears the valid flag. -/
theorem Status.clearPvalid (st : Status s) (lock : Exclusive s) {a : Asker}
    (pc : (s.harts i).pc = .clearPvalid a)
    (taken : hartStep s.shared (s.harts i) = some (h, sh, new)) : Status (moved s i h sh new) := by
  have locked : Locked (s.harts i).pc := pc ▸ trivial
  have running := st.running taken (by simp [pc]) (by simp [pc])
  have free := st.unasked (not_waits lock locked (by rw [pc]; rfl))
  have mine := st.harts i
  simp only [hartStep, pc, Option.some.injEq, Prod.mk.injEq] at taken
  obtain ⟨rfl, rfl, rfl⟩ := taken
  refine ⟨?_, fun busy => absurd busy free.1, fun sets => absurd sets free.2.1,
    fun r set => (free.2.2 r set).imp_right .inl, fun exits => absurd exits running,
    fun leaves => absurd (st.leaves leaves).1 running⟩
  · refine forall_update (fun j (h : Hart) => HartOk _ j h.pc) ?_ fun j apart => ?_
    · refine ⟨by simp [asker], fun _ _ => rfl, fun settled => ?_, by simp, by simp⟩
      have was : Settled (s.harts i).pc := by
        rw [pc]
        cases a <;> exact settled
      simpa using mine.settled was
    · exact (st.harts j).other (Ne.symm apart)
        (fun also => absurd (lock.one j i also locked) apart) id

/-- An asker writes its request. -/
theorem Status.request (st : Status s) (lock : Exclusive s) {a : Asker}
    (pc : (s.harts i).pc = .request a) (free : ¬Clears s.dm.pc)
    (taken : hartStep s.shared (s.harts i) = some (h, sh, new)) : Status (moved s i h sh new) := by
  have locked : Locked (s.harts i).pc := pc ▸ trivial
  have running := st.running taken (by simp [pc]) (by simp [pc])
  have quiet := st.unasked (not_waits lock locked (by rw [pc]; rfl))
  have mine := st.harts i
  have closed := mine.fresh a pc
  simp only [hartStep, pc, Option.some.injEq, Prod.mk.injEq] at taken
  obtain ⟨rfl, rfl, rfl⟩ := taken
  refine ⟨?_, fun busy => absurd busy quiet.1, fun sets => absurd sets quiet.2.1,
    fun _ _ => Or.inr (Or.inr ⟨i, a, ?_, closed⟩), fun exits => ?_,
    fun leaves => absurd (st.leaves leaves).1 running⟩
  · refine forall_update (fun j (h : Hart) => HartOk _ j h.pc) ?_ fun j apart => ?_
    · refine ⟨fun a' asks => ?_, by simp, fun settled => ?_, by simp, by simp⟩
      · cases asks
        exact Or.inl ⟨closed, rfl, free⟩
      · have was : Settled (s.harts i).pc := by
          rw [pc]
          cases a <;> exact settled
        simpa using mine.settled was
    · exact (st.harts j).other (Ne.symm apart)
        (fun also => absurd (lock.one j i also locked) apart) id
  · simp [asker]
  · cases a <;> cases exits

/-- An asker sees the answer. -/
theorem Status.answered (st : Status s) {a : Asker} (pc : (s.harts i).pc = .waitPvalid a)
    (taken : hartStep s.shared (s.harts i) = some (h, sh, new)) : Status (moved s i h sh new) := by
  have running := st.running taken (by simp [pc]) (by simp [pc])
  have mine := st.harts i
  simp only [hartStep, pc, Option.ite_none_right_eq_some, Option.some.injEq, Prod.mk.injEq] at taken
  obtain ⟨valid, rfl, rfl, rfl⟩ := taken
  have free := st.unasked fun i' a waits => by
    rw [waits.2] at valid
    cases valid
  refine ⟨?_, fun busy => absurd busy free.1, fun sets => absurd sets free.2.1,
    fun r set => (free.2.2 r set).imp_right .inl, fun exits => absurd exits running,
    fun leaves => absurd (st.leaves leaves).1 running⟩
  · refine forall_update (fun j (h : Hart) => HartOk _ j h.pc) ?_ fun j apart => ?_
    · refine ⟨by simp [asker], by simp, False.elim, fun at_ => ?_, by simp⟩
      cases at_
      rcases mine.asks .dmWait (by rw [pc]; rfl) with ⟨closed, -⟩ | ⟨-, -, through⟩
      · rw [closed] at valid
        cases valid
      · simpa using through rfl
    · exact (st.harts j).other (Ne.symm apart) (fun _ => ⟨rfl, rfl⟩) id

/-- A position at which a hart knows nothing of the requests. -/
def Apart : HartPc → Prop
  | .waitStat | .lockAsk .dmWait | .clearPvalid .dmWait | .request _ | .wakeLoad (.ask _)
  | .wakeSet (.ask _) | .waitPvalid _ | .releaseAsk .dmWait => False
  | _ => True

theorem Apart.asker {pc : HartPc} (apart : Apart pc) : asker pc = none := by
  unfold StatusRequests.asker
  split <;> first | exact apart.elim | rfl

theorem Apart.ok {pc : HartPc} (apart : Apart pc) {t : State n} : HartOk t i pc := by
  refine ⟨fun a is => ?_, fun a is => ?_, fun settled => ?_, fun is => ?_, fun a is => ?_⟩
  · exact absurd (apart.asker.symm.trans is) (by simp)
  · exact (is ▸ apart : Apart (.request a)).elim
  · unfold Settled at settled
    split at settled <;> exact False.elim (by assumption)
  · exact (is ▸ apart : Apart (.releaseAsk .dmWait)).elim
  · exact (is ▸ apart : Apart (.waitPvalid a)).elim

/-- In `dm_exit` from the request on, all others being done. -/
theorem Status.exit (st : Status s) (sleeps : Sleeps s.dm.pc) (statQ : sh.statQ = some .exit)
    (others : ∀ j, j ≠ i → Done (s.harts j)) (clint : s.shared.clint = true → sh.clint = true)
    (quiet : Apart h.pc)
    (last : Done h ∨ Exiting (moved s i h sh new) i) : Status (moved s i h sh new) := by
  have awake : ∀ {pc}, s.dm.pc = pc → ¬Sleeps pc → False := fun at_ out => out (at_ ▸ sleeps)
  have here : (moved s i h sh new).harts i = h := Function.update_self ..
  refine ⟨?_, fun busy => (awake busy id).elim, fun sets => (awake sets id).elim,
    fun r set => Or.inl ?_, fun _ => ⟨i, fun j apart => ?_, ?_⟩, fun leaves => ?_⟩
  · refine forall_update (fun j (h : Hart) => HartOk _ j h.pc) ?_ fun j apart => ?_
    · exact quiet.ok
    · exact (st.harts j).other (Ne.symm apart)
        (fun also => absurd also (not_locked_of_done (others j apart))) clint
  · exact Option.some.inj (set.symm.trans statQ)
  · simp only [Function.update_of_ne apart]
    exact others j apart
  · rw [here]
    exact last
  · have out := (st.leaves leaves).2
    unfold Sleeps at sleeps
    unfold Leaves at out
    split at sleeps <;> simp_all

/-- The hart in `dm_exit` is the one that wrote the request. -/
theorem Status.exiting (st : Status s) (exit : s.shared.statQ = some .exit)
    (pc : (s.harts i).pc = .wakeLoad .dmExit ∨ (s.harts i).pc = .wakeSet .dmExit) :
    (∀ j, j ≠ i → Done (s.harts j)) ∧ Exiting s i := by
  have busy : ¬Done (s.harts i) := by
    intro done
    rw [done] at pc
    simp at pc
  obtain ⟨k, others, last⟩ := st.exits exit
  by_cases at_ : i = k
  · subst at_
    exact ⟨others, last.resolve_left busy⟩
  · exact absurd (others i at_) busy

theorem Status.wakeLoadExit (st : Status s) (exit : s.shared.statQ = some .exit)
    (pc : (s.harts i).pc = .wakeLoad .dmExit)
    (taken : hartStep s.shared (s.harts i) = some (h, sh, new)) : Status (moved s i h sh new) := by
  obtain ⟨others, todo, -, sleeps, quiet⟩ := st.exiting exit (Or.inl pc)
  simp only [hartStep, pc, Option.ite_none_left_eq_some, Option.some.injEq, Prod.mk.injEq] at taken
  obtain ⟨-, rfl, rfl, rfl⟩ := taken
  refine st.exit sleeps exit others id trivial (Or.inr ?_)
  simp only [Exiting, Function.update_self]
  exact ⟨todo, Or.inr trivial, sleeps, quiet⟩

theorem apart_enter (c : Call) : Apart c.enter := by
  rcases c with c | - | ⟨⟨⟩⟩ | - <;> trivial

/-- A hart that moves to where it knows nothing. -/
theorem Status.apart (st : Status s) (running : s.shared.statQ ≠ some .exit)
    (statQ : sh.statQ = s.shared.statQ) (pvalid : sh.statPvalid = s.shared.statPvalid)
    (clint : s.shared.clint = true → sh.clint = true) (was : asker (s.harts i).pc = none)
    (is : Apart h.pc) : Status (moved s i h sh new) :=
  st.quiet running statQ pvalid clint (is.asker.trans was.symm) (Or.inr is.asker) is.ok

theorem asked_moved {a : Asker} (statQ : sh.statQ = s.shared.statQ)
    (pvalid : sh.statPvalid = s.shared.statPvalid) (asked : Asked s i a) :
    Asked (moved s i h sh none) i a := by
  unfold Asked
  simp only [statQ, pvalid, Option.toList_none, List.map_nil, List.append_nil]
  exact asked

theorem Status.hart (st : Status s) (inv : Inv s) (allowed : Allowed s (.hart i))
    (taken : hartStep s.shared (s.harts i) = some (h, sh, new)) : Status (moved s i h sh new) := by
  have mine := st.harts i
  obtain ⟨-, free⟩ := allowed
  have running := st.running taken
  have whole := taken
  cases pc : (s.harts i).pc <;> simp only [hartStep, pc, Option.ite_none_left_eq_some,
    Option.ite_none_right_eq_some, Option.some.injEq, Prod.mk.injEq] at taken <;>
    simp only [pc, ne_eq, reduceCtorEq, not_false_eq_true, forall_const] at running
  case clearPvalid => exact st.clearPvalid inv.lock pc whole
  case request =>
    simp only [RequestHolds, pc] at free
    exact st.request inv.lock pc free whole
  case waitPvalid => exact st.answered pc whole
  case requestExit =>
    simp only [RequestHolds, pc] at free
    obtain ⟨sleeps, quiet, todo, others⟩ := free
    obtain ⟨rfl, rfl, rfl⟩ := taken
    refine st.exit sleeps rfl others id trivial (Or.inr ?_)
    simp only [Exiting, Function.update_self]
    exact ⟨todo, Or.inl trivial, sleeps, quiet⟩
  case idle =>
    split at taken
    · cases taken
    next call todo _ =>
      cases taken
      exact st.apart running rfl rfl id (by rw [pc]; rfl) (apart_enter call)
  case insert c todo =>
    cases todo with
    | cons w todo =>
      cases taken
      exact st.apart running rfl rfl id (by rw [pc]; rfl) trivial
    | nil =>
      cases taken
      exact st.apart running rfl rfl id (by rw [pc]; rfl) trivial
  case pollFill | lock =>
    obtain ⟨-, rfl, rfl, rfl⟩ := taken
    exact st.apart running rfl rfl id (by rw [pc]; rfl) trivial
  case bumpFront | release | releaseAsk =>
    obtain ⟨rfl, rfl, rfl⟩ := taken
    exact st.apart running rfl rfl id (by rw [pc]; rfl) trivial
  case waitFill =>
    obtain ⟨none, rfl, rfl, rfl⟩ := taken
    refine st.quiet running rfl rfl id (by rw [pc]; rfl) (Or.inl rfl)
      ⟨by simp [asker], by simp, fun _ => ?_, by simp, by simp⟩
    have all := congrArg List.length (inv.intact.empty none)
    rw [State.transfers, List.length_map] at all
    exact before_all (by simp [all])
  case waitStat =>
    obtain ⟨-, rfl, rfl, rfl⟩ := taken
    refine st.quiet running rfl rfl id (by rw [pc]; rfl) (Or.inl rfl)
      ⟨by simp [asker], by simp, fun _ => ?_, by simp, by simp⟩
    simpa using mine.settled (pc ▸ trivial)
  case lockAsk a =>
    obtain ⟨-, rfl, rfl, rfl⟩ := taken
    refine st.quiet running rfl rfl id (by rw [pc]; rfl) (Or.inl rfl)
      ⟨by simp [asker], by simp, fun settled => ?_, by simp, by simp⟩
    have was : Settled (s.harts i).pc := by
      rw [pc]
      cases a <;> exact settled
    simpa using mine.settled was
  case wakeLoad w =>
    obtain ⟨-, rfl, rfl, rfl⟩ := taken
    cases w with
    | dmStart | dmWait => exact st.apart (running (by simp)) rfl rfl id (by rw [pc]; rfl) trivial
    | dmExit =>
      by_cases exit : s.shared.statQ = some .exit
      · exact st.wakeLoadExit exit pc whole
      · exact st.apart exit rfl rfl id (by rw [pc]; rfl) trivial
    | ask a =>
      refine st.quiet (running (by simp)) rfl rfl id (by rw [pc]; rfl) (Or.inl rfl)
        ⟨fun a' asks => ?_, by simp, fun settled => ?_, by simp, by simp⟩
      · cases asks
        exact asked_moved rfl rfl (mine.asks a (by rw [pc]; rfl))
      · have was : Settled (s.harts i).pc := by
          rw [pc]
          cases a <;> exact settled
        simpa using mine.settled was
  case wakeSet w =>
    obtain ⟨rfl, rfl, rfl⟩ := taken
    cases w with
    | dmStart =>
      exact st.apart (running (by simp)) rfl rfl (fun _ => rfl) (by rw [pc]; rfl) trivial
    | dmWait =>
      exact st.apart (running (by simp)) rfl rfl (fun _ => rfl) (by rw [pc]; rfl) trivial
    | dmExit =>
      by_cases exit : s.shared.statQ = some .exit
      · obtain ⟨others, todo, -, sleeps, -⟩ := st.exiting exit (Or.inr pc)
        refine st.exit sleeps exit others (fun _ => rfl) trivial (Or.inl ?_)
        rw [Done, todo]
        rfl
      · exact st.apart exit rfl rfl (fun _ => rfl) (by rw [pc]; rfl) trivial
    | ask a =>
      refine st.quiet (running (by simp)) rfl rfl (fun _ => rfl) (by rw [pc]; rfl) (Or.inl rfl)
        ⟨fun a' asks => ?_, by simp [Waker.next], fun settled => ?_, by simp [Waker.next], fun _ _ _ _ => rfl⟩
      · cases asks
        exact asked_moved rfl rfl (mine.asks a (by rw [pc]; rfl))
      · have was : Settled (s.harts i).pc := by
          rw [pc]
          cases a <;> exact settled
        simpa using mine.settled was

end Harts

/-! ## Steps of the DM core -/

section Dm

variable {n : Nat} {s : State n} {d : DmCore} {sh : Shared} {e : Engine}

section

variable (st : Status s) (statQ : sh.statQ = s.shared.statQ)
    (pvalid : sh.statPvalid = s.shared.statPvalid) (was : ¬Clears s.dm.pc) (is : ¬Clears d.pc)

include st statQ pvalid was is

/-- The DM core moves without touching the requests. -/
theorem Status.dmQuiet (issued : s.engine.issued.length ≤ e.issued.length)
    (completed : s.engine.completed ≤ e.completed)
    (busy : d.pc = .testBusy → ∃ i, Waits s i .dmWait) (sets : d.pc = .setPvalid →
      ∃ i a, Waits s i a ∧ (a = .dmWait → Before s.queued i e.completed)) (sleeps : Sleeps d.pc →
      Sleeps s.dm.pc ∧ sh.clint = s.shared.clint ∨ s.shared.statQ = none)
    (exiting : ∀ i, Exiting s i → Sleeps d.pc ∧ sh.clint = s.shared.clint)
    (leaves : d.doExit = true ∨ d.pc = .exited → s.shared.statQ = some .exit ∧ Leaves d.pc) :
    Status { s with dm := d, shared := sh, engine := e } := by
  have waits : ∀ {i a}, Waits s i a → Waits { s with dm := d, shared := sh, engine := e } i a :=
    fun waits => ⟨waits.1, pvalid.trans waits.2⟩
  refine ⟨fun i => ?_, fun pc => ?_, fun pc => ?_, fun r set => ?_, fun exits => ?_, fun out => ?_⟩
  · have ok := st.harts i
    refine ⟨fun a asks => ?_, fun a at_ => pvalid.trans (ok.fresh a at_),
      fun in_ => (ok.settled in_).mono issued, fun at_ => (ok.through at_).mono completed,
      fun a at_ closed asleep => ?_⟩
    · rcases ok.asks a asks with ⟨closed, set, -⟩ | ⟨set, gone, through⟩
      · exact Or.inl ⟨pvalid.trans closed, statQ.trans set, is⟩
      · exact Or.inr ⟨pvalid.trans set, Or.inl (statQ.trans (gone.resolve_right was)),
          fun wait => (through wait).mono completed⟩
    · have closed : s.shared.statPvalid = false := pvalid.symm.trans closed
      rcases sleeps asleep with ⟨before, clint⟩ | none
      · exact clint.trans (ok.woken a at_ closed before)
      · rcases ok.asks a (by rw [at_]; rfl) with ⟨-, set, -⟩ | ⟨set, -⟩
        · exact absurd (none.symm.trans set) (by simp)
        · exact absurd (closed.symm.trans set) (by simp)
  · obtain ⟨i, waiting⟩ := busy pc
    exact ⟨i, waits waiting⟩
  · obtain ⟨i, a, waiting, through⟩ := sets pc
    exact ⟨i, a, waits waiting, through⟩
  · rcases st.pending r (statQ.symm.trans set) with exit | clears | ⟨i, a, waiting⟩
    · exact Or.inl exit
    · exact absurd clears was
    · exact Or.inr (Or.inr ⟨i, a, waits waiting⟩)
  · obtain ⟨i, others, last⟩ := st.exits (statQ.symm.trans exits)
    refine ⟨i, others, last.imp_right fun exit => ?_⟩
    obtain ⟨asleep, clint⟩ := exiting i exit
    obtain ⟨todo, pc, -, quiet⟩ := exit
    exact ⟨todo, pc, asleep, clint.trans quiet⟩
  · obtain ⟨exit, leaving⟩ := leaves out
    exact ⟨statQ.trans exit, leaving⟩

/-- A step away from sleep that changes no shared word of the requests. -/
theorem Status.dmAwake (up : ¬Sleeps s.dm.pc ∧ ¬Sleeps d.pc)
    (issued : s.engine.issued.length ≤ e.issued.length)
    (completed : s.engine.completed ≤ e.completed) (calm : d.pc ≠ .testBusy ∧ d.pc ≠ .setPvalid)
    (leaves : d.doExit = true ∨ d.pc = .exited → s.shared.statQ = some .exit ∧ Leaves d.pc) :
    Status { s with dm := d, shared := sh, engine := e } :=
  st.dmQuiet statQ pvalid was is issued completed (fun pc => absurd pc calm.1)
    (fun pc => absurd pc calm.2) (fun asleep => absurd asleep up.2)
    (fun _ exiting => absurd exiting.2.2.1 up.1) leaves

end

/-- The DM core raises `stat_pvalid`. -/
theorem Status.setPvalid (st : Status s) (lock : Exclusive s) (pc : s.dm.pc = .setPvalid)
    (stays : s.dm.doExit = false) :
    Status { s with dm := { s.dm with pc := .clearStat }
                    shared := { s.shared with statPvalid := true } } := by
  obtain ⟨i, a, waiting, through⟩ := st.sets pc
  have locked := locked_of_asker waiting.1
  refine ⟨fun j => ?_, by simp, by simp, fun _ _ => Or.inr (Or.inl trivial), fun exits => ?_,
    fun leaves => ?_⟩
  · have ok := st.harts j
    refine ⟨fun a' asks => ?_, fun a' at_ => ?_, ok.settled, ok.through, by simp⟩
    · obtain rfl := lock.one j i (locked_of_asker asks) locked
      obtain rfl := Option.some.inj (asks.symm.trans waiting.1)
      exact Or.inr ⟨rfl, Or.inr trivial, through⟩
    · obtain rfl := lock.one j i (at_ ▸ trivial) locked
      have at_ : (s.harts j).pc = .request a' := at_
      have asks := waiting.1
      rw [at_] at asks
      cases asks
  · obtain ⟨k, others, last⟩ := st.exits exits
    refine ⟨k, others, Or.inl (last.resolve_right fun exiting => ?_)⟩
    have asleep := exiting.2.2.1
    rw [pc] at asleep
    exact asleep
  · simp [stays] at leaves

/-- The DM core clears the request. -/
theorem Status.clearStat (st : Status s) (pc : s.dm.pc = .clearStat)
    (stays : s.dm.doExit = false) :
    Status { s with dm := { s.dm with pc := .sleepFill }
                    shared := { s.shared with statQ := none } } := by
  have clears : Clears s.dm.pc := by
    rw [pc]
    trivial
  refine ⟨fun j => ?_, by simp, by simp, by simp, by simp, fun leaves => ?_⟩
  · have ok := st.harts j
    refine ⟨fun a asks => ?_, ok.fresh, ok.settled, ok.through, fun _ _ _ asleep => asleep.elim⟩
    rcases ok.asks a asks with ⟨-, -, open_⟩ | ⟨set, -, through⟩
    · exact absurd clears open_
    · exact Or.inr ⟨set, Or.inl rfl, through⟩
  · simp [stays] at leaves

/-- Off the way out the DM core has not been asked to exit. -/
theorem Status.stays (st : Status s) (off : ¬Leaves s.dm.pc) : s.dm.doExit = false :=
  Bool.eq_false_iff.mpr fun exit => off (st.leaves (Or.inl exit)).2

/-- The end of the loop. -/
theorem Status.loop (st : Status s) :
    (¬Clears s.dm.loop.pc ∧ ¬Sleeps s.dm.loop.pc ∧ s.dm.loop.pc ≠ .testBusy ∧
      s.dm.loop.pc ≠ .setPvalid) ∧
      (s.dm.loop.doExit = true ∨ s.dm.loop.pc = .exited →
        s.shared.statQ = some .exit ∧ Leaves s.dm.loop.pc) := by
  cases exit : s.dm.doExit with
  | true =>
    have out : s.dm.loop.pc = .exited := by simp [DmCore.loop, exit]
    rw [out]
    exact ⟨⟨id, id, by simp, by simp⟩, fun _ => ⟨(st.leaves (Or.inl exit)).1, trivial⟩⟩
  | false =>
    have again : s.dm.loop.pc = .testFill := by simp [DmCore.loop, exit]
    have stays : s.dm.loop.doExit = false := exit
    rw [again, stays]
    exact ⟨⟨id, id, by simp, by simp⟩, by simp⟩

theorem Status.dm {full : Engine → Bool} (st : Status s) (lock : Exclusive s)
    (taken : dmMain full s.shared s.engine s.dm = some (d, sh, e)) :
    Status { s with dm := d, shared := sh, engine := e } := by
  have loop := st.loop
  have stays := st.stays
  have asked := st.pending
  have sleeping := st.harts
  cases pc : s.dm.pc <;> simp only [dmMain, pc, Option.ite_none_left_eq_some,
    Option.ite_none_right_eq_some, Option.some.injEq, Prod.mk.injEq, reduceCtorEq] at taken <;>
    rw [pc] at stays
  case setPvalid =>
    obtain ⟨rfl, rfl, rfl⟩ := taken
    exact st.setPvalid lock pc (stays id)
  case clearStat =>
    obtain ⟨rfl, rfl, rfl⟩ := taken
    exact st.clearStat pc (stays id)
  case testFill =>
    obtain ⟨rfl, rfl, rfl⟩ := taken
    have off := stays id
    split <;> exact st.dmAwake rfl rfl (by simp [pc, Clears]) id ⟨by simp [pc, Sleeps], id⟩ le_rfl
      le_rfl ⟨by simp, by simp⟩ (by simp [off])
  case wouldBlock =>
    obtain ⟨-, rfl, rfl, rfl⟩ := taken
    have off := stays id
    exact st.dmAwake rfl rfl (by simp [pc, Clears]) id ⟨by simp [pc, Sleeps], id⟩ le_rfl
      le_rfl ⟨by simp, by simp⟩ (by simp [off])
  case fetch todo t =>
    have off := stays id
    cases todo with
    | cons f todo =>
      cases taken
      exact st.dmAwake rfl rfl (by simp [pc, Clears]) id ⟨by simp [pc, Sleeps], id⟩ le_rfl
        le_rfl ⟨by simp, by simp⟩ (by simp [off])
    | nil =>
      cases taken
      exact st.dmAwake rfl rfl (by simp [pc, Clears]) id ⟨by simp [pc, Sleeps], id⟩ (by simp)
        le_rfl ⟨by simp, by simp⟩ (by simp [off])
  case testTwod | bumpBack | decFill =>
    obtain ⟨rfl, rfl, rfl⟩ := taken
    have off := stays id
    exact st.dmAwake rfl rfl (by simp [pc, Clears]) id ⟨by simp [pc, Sleeps], id⟩ le_rfl
      le_rfl ⟨by simp, by simp⟩ (by simp [off])
  case testStat =>
    obtain ⟨rfl, rfl, rfl⟩ := taken
    have off := stays id
    split <;> exact st.dmAwake rfl rfl (by simp [pc, Clears]) id ⟨by simp [pc, Sleeps], id⟩ le_rfl
      le_rfl ⟨by simp, by simp⟩ (by simp [off])
  case switchStat =>
    have off := stays id
    have clear : ¬Clears s.dm.pc := by simp [pc, Clears]
    have up : ¬Sleeps s.dm.pc := by simp [pc, Sleeps]
    have waiting : ∀ r, s.shared.statQ = some r → r ≠ .exit →
        ∃ i a, Waits s i a ∧ a.statQ = r := by
      intro r set other
      rcases asked r set with exit | clears | ⟨i, a, waits⟩
      · exact absurd exit other
      · exact absurd clears clear
      · refine ⟨i, a, waits, ?_⟩
        rcases (sleeping i).asks a waits.1 with ⟨-, mine, -⟩ | ⟨valid, -⟩
        · exact Option.some.inj (mine.symm.trans set)
        · exact absurd (waits.2.symm.trans valid) (by simp)
    split at taken
    next set =>
      cases taken
      refine st.dmQuiet rfl rfl clear id le_rfl le_rfl (fun _ => ?_) (by simp) False.elim
        (fun _ exiting => absurd exiting.2.2.1 up) (by simp [off])
      obtain ⟨i, a, waits, is⟩ := waiting _ set (by simp)
      cases a with
      | dmWait => exact ⟨i, waits⟩
      | dmWaitReady => cases is
    next set =>
      cases taken
      exact st.dmAwake rfl rfl clear id ⟨up, id⟩ le_rfl le_rfl ⟨by simp, by simp⟩
        fun _ => ⟨set, trivial⟩
    next set =>
      cases taken
      refine st.dmQuiet rfl rfl clear id le_rfl le_rfl (by simp) (fun _ => ?_) False.elim
        (fun _ exiting => absurd exiting.2.2.1 up) (by simp [off])
      obtain ⟨i, a, waits, is⟩ := waiting _ set (by simp)
      cases a with
      | dmWait => cases is
      | dmWaitReady => exact ⟨i, _, waits, by simp⟩
    next =>
      cases taken
      exact st.dmAwake rfl rfl clear id ⟨up, id⟩ le_rfl le_rfl ⟨by simp, by simp⟩ (by simp [off])
  case testBusy =>
    obtain ⟨rfl, rfl, rfl⟩ := taken
    have off := stays id
    have clear : ¬Clears s.dm.pc := by simp [pc, Clears]
    have up : ¬Sleeps s.dm.pc := by simp [pc, Sleeps]
    by_cases busy : s.engine.busy
    · rw [if_pos busy]
      exact st.dmAwake rfl rfl clear id ⟨up, id⟩ le_rfl le_rfl ⟨by simp, by simp⟩ (by simp [off])
    · rw [if_neg busy]
      refine st.dmQuiet rfl rfl clear id le_rfl le_rfl (by simp) (fun _ => ?_) False.elim
        (fun _ exiting => absurd exiting.2.2.1 up) (by simp [off])
      obtain ⟨i, waits⟩ := st.busy pc
      -- all that has been issued is complete, the tasks of this hart included
      have done : s.engine.issued.length ≤ s.engine.completed := by
        simpa [Engine.busy] using busy
      refine ⟨i, _, waits, fun _ => ((sleeping i).settled ?_).mono done⟩
      have asks := waits.1
      cases at_ : (s.harts i).pc with
      | wakeLoad w => cases w <;> rw [at_] at asks <;> cases asks; trivial
      | wakeSet w => cases w <;> rw [at_] at asks <;> cases asks; trivial
      | waitPvalid a =>
        rw [at_] at asks
        cases asks
        trivial
      | _ =>
        rw [at_] at asks
        cases asks
  case sleepFill =>
    obtain ⟨rfl, rfl, rfl⟩ := taken
    have clear : ¬Clears s.dm.pc := by simp [pc, Clears]
    have up : ¬Sleeps s.dm.pc := by simp [pc, Sleeps]
    split
    · refine st.dmAwake rfl rfl clear id ⟨up, id⟩ le_rfl le_rfl ⟨by simp, by simp⟩ fun exit => ?_
      exact ⟨(st.leaves (exit.imp_right (by simp))).1, trivial⟩
    · exact st.dmAwake rfl rfl clear loop.1.1 ⟨up, loop.1.2.1⟩ le_rfl le_rfl loop.1.2.2 loop.2
  case sleepStat =>
    obtain ⟨rfl, rfl, rfl⟩ := taken
    have clear : ¬Clears s.dm.pc := by simp [pc, Clears]
    have up : ¬Sleeps s.dm.pc := by simp [pc, Sleeps]
    split
    next none =>
      refine st.dmQuiet rfl rfl clear id le_rfl le_rfl (by simp) (by simp) (fun _ => Or.inr none)
        (fun _ exiting => absurd exiting.2.2.1 up) fun exit => ?_
      have set := (st.leaves (exit.imp_right (by simp))).1
      rw [none] at set
      cases set
    next =>
      exact st.dmAwake rfl rfl clear loop.1.1 ⟨up, loop.1.2.1⟩ le_rfl le_rfl loop.1.2.2 loop.2
  case incWfi =>
    obtain ⟨rfl, rfl, rfl⟩ := taken
    have off := stays id
    exact st.dmQuiet rfl rfl (by simp [pc, Clears]) id le_rfl le_rfl (by simp) (by simp)
      (fun _ => Or.inl ⟨by simp [pc, Sleeps], rfl⟩) (fun _ _ => ⟨trivial, rfl⟩) (by simp [off])
  case wfi =>
    obtain ⟨pending, rfl, rfl, rfl⟩ := taken
    have off := stays id
    refine st.dmQuiet rfl rfl (by simp [pc, Clears]) id le_rfl le_rfl (by simp) (by simp) False.elim
      (fun _ exiting => ?_) (by simp [off])
    exact absurd (exiting.2.2.2.symm.trans pending) (by simp)
  case clr =>
    obtain ⟨rfl, rfl, rfl⟩ := taken
    have off := stays id
    exact st.dmAwake rfl rfl (by simp [pc, Clears]) id ⟨by simp [pc, Sleeps], id⟩ le_rfl
      le_rfl ⟨by simp, by simp⟩ (by simp [off])
  case subWfi =>
    obtain ⟨rfl, rfl, rfl⟩ := taken
    exact st.dmAwake rfl rfl (by simp [pc, Clears]) loop.1.1 ⟨by simp [pc, Sleeps], loop.1.2.1⟩
      le_rfl le_rfl loop.1.2.2 loop.2

end Dm

/-! ## Requests are answered -/

section Answers

variable {n : Nat} {s : State n} {full : Engine → Bool} {program : Fin n → List Call}

/-- The queue, the requests, and an engine that completes what it was given. -/
structure Sound (s : State n) : Prop where
  inv : Inv s
  status : Status s
  completed : s.engine.completed ≤ s.engine.issued.length

theorem sound_start (program : Fin n → List Call) : Sound (start program) where
  inv := inv_start program
  status := by
    have idle : Apart .idle := trivial
    exact ⟨fun _ => idle.ok, by simp [start], by simp [start], by simp [start], by simp [start], by simp [start]⟩
  completed := le_rfl

theorem dmMain_engine {sh sh' : Shared} {e e' : Engine} {d d' : DmCore}
    (taken : dmMain full sh e d = some (d', sh', e')) :
    e'.completed = e.completed ∧ e.issued.length ≤ e'.issued.length := by
  cases pc : d.pc <;> simp only [dmMain, pc, Option.ite_none_left_eq_some,
    Option.ite_none_right_eq_some, Option.some.injEq, Prod.mk.injEq, reduceCtorEq] at taken
  case fetch todo t => cases todo <;> cases taken <;> simp
  case switchStat => split at taken <;> cases taken <;> exact ⟨rfl, le_rfl⟩
  case wouldBlock | wfi =>
    obtain ⟨-, -, -, rfl⟩ := taken
    exact ⟨rfl, le_rfl⟩
  all_goals
    obtain ⟨-, -, rfl⟩ := taken
    exact ⟨rfl, le_rfl⟩

theorem Status.engine (st : Status s) :
    Status { s with engine := { s.engine with completed := s.engine.completed + 1 } } := by
  refine ⟨fun i => ?_, st.busy, fun pc => ?_, st.pending, st.exits, st.leaves⟩
  · have ok := st.harts i
    refine ⟨fun a asks => ?_, ok.fresh, ok.settled, fun at_ => (ok.through at_).mono (Nat.le_succ _),
      ok.woken⟩
    rcases ok.asks a asks with open_ | ⟨set, gone, through⟩
    · exact Or.inl open_
    · exact Or.inr ⟨set, gone, fun waits => (through waits).mono (Nat.le_succ _)⟩
  · obtain ⟨i, a, waits, through⟩ := st.sets pc
    exact ⟨i, a, waits, fun is => (through is).mono (Nat.le_succ _)⟩

theorem Sound.step (sound : Sound s) {l : Label n} (allowed : Allowed s l) {t : State n}
    (taken : (dataMover full n).step l s = some t) : Sound t := by
  refine ⟨sound.inv.step allowed.1 taken, ?_, ?_⟩
  · cases l with
    | dm =>
      obtain ⟨⟨d, sh, e⟩, stepped, rfl⟩ := Option.map_eq_some_iff.mp taken
      exact sound.status.dm sound.inv.lock stepped
    | engine =>
      simp only [dataMover, Option.ite_none_right_eq_some, Option.some.injEq] at taken
      obtain ⟨-, rfl⟩ := taken
      exact sound.status.engine
    | hart i =>
      obtain ⟨⟨h, sh, new⟩, stepped, rfl⟩ := Option.map_eq_some_iff.mp taken
      exact sound.status.hart sound.inv allowed stepped
  · have before := sound.completed
    cases l with
    | dm =>
      obtain ⟨⟨d, sh, e⟩, stepped, rfl⟩ := Option.map_eq_some_iff.mp taken
      obtain ⟨same, more⟩ := dmMain_engine stepped
      simp only
      omega
    | engine =>
      simp only [dataMover, Option.ite_none_right_eq_some, Option.some.injEq] at taken
      obtain ⟨busy, rfl⟩ := taken
      exact of_decide_eq_true busy
    | hart i =>
      obtain ⟨⟨h, sh, new⟩, stepped, rfl⟩ := Option.map_eq_some_iff.mp taken
      exact before

theorem sound_reaches (reached : (dataMover full n).Reaches Allowed (start program) s) : Sound s :=
  reached.invariant Sound (sound_start program) fun _ _ _ sound allowed taken =>
    sound.step allowed taken

theorem Before.lt {queued : List (Fin n × Copy)} {i : Fin n} {count : Nat}
    (before : Before queued i count) {k : Nat} (h : k < queued.length) (mine : queued[k].1 = i) :
    k < count := by
  by_contra late
  have member : queued[k] ∈ queued.drop count := by
    refine List.mem_of_getElem? (i := k - count) ?_
    rw [List.getElem?_drop, Nat.add_sub_cancel' (Nat.not_lt.mp late), List.getElem?_eq_getElem h]
  exact before _ member mine

/-- What the harts may rely on. -/
structure Answered (s : State n) : Prop where
  /-- When `dm_wait` returns, all that its caller has queued is issued and complete. -/
  waited : ∀ i, (s.harts i).pc = .releaseAsk .dmWait → ∀ k (h : k < s.queued.length),
    s.queued[k].1 = i → k < s.engine.completed ∧ s.engine.issued[k]? = some s.queued[k].2.transfer
  /-- A hart that waits for the answer has its request pending, and the DM core does not
  sleep on it. -/
  answered : ∀ i a, (s.harts i).pc = .waitPvalid a → s.shared.statPvalid = false →
    s.shared.statQ ≠ none ∧ (s.dm.pc = .wfi → s.shared.clint = true)
  /-- No hart waits for the sleep of a DM core that has left its loop. -/
  awake : ∀ i w, (s.harts i).pc = .wakeLoad w → s.dm.pc ≠ .exited

theorem Sound.answered (sound : Sound s) : Answered s where
  waited i pc k h mine := by
    have done := ((sound.status.harts i).through pc).lt h mine
    have given := Nat.lt_of_lt_of_le done sound.completed
    have first := sound.inv.intact.issued.getElem given
    refine ⟨done, ?_⟩
    rw [List.getElem?_eq_getElem given, first]
    simp [State.transfers]
  answered i a pc closed := by
    have ok := sound.status.harts i
    rcases ok.asks a (by rw [pc]; rfl) with ⟨-, set, -⟩ | ⟨valid, -⟩
    · refine ⟨by simp [set], fun asleep => ok.woken a pc closed ?_⟩
      rw [asleep]
      trivial
    · exact absurd (closed.symm.trans valid) (by simp)
  awake i w pc gone := by
    have st := sound.status
    obtain ⟨exit, -⟩ := st.leaves (Or.inr gone)
    have busy : ¬Done (s.harts i) := by
      intro done
      rw [done] at pc
      cases pc
    obtain ⟨k, others, last⟩ := st.exits exit
    by_cases at_ : i = k
    · subst at_
      have asleep := (last.resolve_left busy).2.2.1
      rw [gone] at asleep
      exact asleep
    · exact busy (others i at_)

/-- **Requests are answered**, in every run that keeps clear of the two windows. -/
theorem requests_answered
    (reached : (dataMover full n).Reaches Allowed (start program) s) : Answered s :=
  (sound_reaches reached).answered

end Answers

/-- A hart copies, waits for its copy and sends the DM core out of its loop. -/
theorem requests_answered_single : ∃ s, (dataMover (fun _ => false) 1).Reaches Allowed
    (start fun _ => [.copy (.memcpyAsync 0x100 0x200 64), .ask .dmWait, .dmExit]) s ∧
      (s.harts 0).pc = .releaseAsk .dmWait ∧ s.queued.length = 1 ∧ 0 < s.engine.completed := by
  let system := dataMover (fun _ => false) 1
  let begin : State 1 :=
    start fun _ => [.copy (.memcpyAsync 0x100 0x200 64), .ask .dmWait, .dmExit]
  let schedule : List (Label 1) := List.replicate 5 .dm ++ List.replicate 14 (.hart 0) ++
    List.replicate 13 .dm ++ [.engine] ++ List.replicate 4 .dm ++ List.replicate 7 (.hart 0) ++
    List.replicate 9 .dm ++ [.hart 0]
  have ran : (system.run begin schedule).any (fun s => decide
      ((s.harts 0).pc = .releaseAsk .dmWait ∧ s.queued.map Prod.fst = [0])) = true := by
    decide
  obtain ⟨s, ran, holds⟩ := (Option.any_eq_true _ _).mp ran
  obtain ⟨pc, one⟩ := of_decide_eq_true holds
  have reached : system.Reaches Allowed begin s :=
    system.reaches_run schedule (by decide) ran
  have size : s.queued.length = 1 := by simpa using congrArg List.length one
  have first : (s.queued[0]).1 = 0 := Subsingleton.elim _ _
  exact ⟨s, reached, pc, size, ((requests_answered reached).waited 0 pc 0 (by omega) first).1⟩

/-- A request that is written between the two writes of the answer before is lost: its hart
waits for ever and the DM core sleeps. -/
theorem status_lost : ∃ s, (dataMover (fun _ => false) 2).Reachable
    (start fun _ => [.ask .dmWaitReady]) s ∧
      (s.harts 1).pc = .waitPvalid .dmWaitReady ∧ s.shared.statPvalid = false ∧
      s.shared.statQ = none ∧ Sleeps s.dm.pc ∧ s.shared.clint = false := by
  let system := dataMover (fun _ => false) 2
  let begin : State 2 := start fun _ => [.ask .dmWaitReady]
  let schedule : List (Label 2) := List.replicate 5 .dm ++ List.replicate 6 (.hart 0) ++
    List.replicate 7 .dm ++ List.replicate 2 (.hart 0) ++ List.replicate 4 (.hart 1) ++
    List.replicate 4 .dm ++ List.replicate 2 (.hart 1) ++ List.replicate 8 .dm
  have ran : (system.run begin schedule).any (fun s => decide
      ((s.harts 1).pc = .waitPvalid .dmWaitReady ∧ s.shared.statPvalid = false ∧
        s.shared.statQ = none ∧ Sleeps s.dm.pc ∧ s.shared.clint = false)) = true := by
    decide
  obtain ⟨s, ran, stuck⟩ := (Option.any_eq_true _ _).mp ran
  exact ⟨s, system.reachable_run schedule ran, of_decide_eq_true stuck⟩

end SnitchCluster.Runtime.StatusRequests
