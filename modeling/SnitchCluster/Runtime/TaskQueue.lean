/-
# Runtime.TaskQueue -- the data mover and the tasks that harts queue for it

Any number of harts call the functions of `dm.h` while the DM core runs `dm_main`.  Each
access of the shared words is one step; a spin that finds its condition false, and a sleep
without an interrupt, are no step.  `queued` logs the tasks in the order in which their harts
held the lock, `issued` the transfers that the DM core has started.

A hart tests `queue_fill` before it takes the lock, so that two harts that see one free slot
both go on (`task_queue_overflow`).  As long as the test is still true when the slot is
written, the ring holds what is queued and not yet issued (`Inv`).
-/
import Mathlib.Data.Fintype.Sigma
import SnitchCluster.Theory.Cells
import SnitchCluster.Theory.Interleaving
import SnitchCluster.Theory.Ring

namespace SnitchCluster.Runtime.TaskQueue

open Theory

/-! ## The shared words -/

def dmTaskQueueSize : Nat := 4

instance : NeZero dmTaskQueueSize := ⟨by decide⟩

/-- The fields of `dm_task_t`. -/
inductive Field
  | src | dst | size | sstrd | dstrd | nreps | cfg | twod
  deriving DecidableEq, Repr

def Field.width : Field → Nat
  | .src | .dst => 64
  | _ => 32

abbrev DmTask := (f : Field) → BitVec f.width

/-- A write of a field. -/
abbrev Write := (f : Field) × BitVec f.width

def DmTask.write (t : DmTask) (w : Write) : DmTask := Function.update t w.1 w.2

/-- What the DM core starts on the engine. -/
inductive Transfer
  | oned (src dst : BitVec 64) (size cfg : BitVec 32)
  | twod (src dst : BitVec 64) (size sstrd dstrd nreps cfg : BitVec 32)
  deriving DecidableEq, Repr

def DmTask.transfer (t : DmTask) : Transfer :=
  if (t .twod : BitVec 32) ≠ 0 then
    .twod (t .src) (t .dst) (t .size) (t .sstrd) (t .dstrd) (t .nreps) (t .cfg)
  else .oned (t .src) (t .dst) (t .size) (t .cfg)

/-- `en_stat_t`, without 0. -/
inductive EnStat
  | waitIdle
  | exit
  | ready
  deriving DecidableEq, Repr

/-- `dm_t`, and the interrupt of the DM core. -/
structure Shared where
  queue : Fin dmTaskQueueSize → DmTask
  queueBack : Fin dmTaskQueueSize
  queueFront : Fin dmTaskQueueSize
  queueFill : BitVec 32
  mutex : Bool
  statQ : Option EnStat
  statPvalid : Bool
  dmWfi : BitVec 32
  clint : Bool

/-! ## The harts -/

/-- The calls that queue a task. -/
inductive Copy
  | memcpyAsync (dest src n : BitVec 32)
  | memcpy2dAsync (src dst : BitVec 64) (size sstrd dstrd nreps cfg : BitVec 32)
  deriving DecidableEq, Repr

/-- The fields that are written, in order. -/
def Copy.writes : Copy → List Write
  | .memcpyAsync dest src n => [⟨.src, src.setWidth 64⟩, ⟨.dst, dest.setWidth 64⟩, ⟨.size, n⟩,
      ⟨.twod, 0#32⟩, ⟨.cfg, 0#32⟩]
  | .memcpy2dAsync src dst size sstrd dstrd nreps cfg => [⟨.src, src⟩, ⟨.dst, dst⟩, ⟨.size, size⟩,
      ⟨.sstrd, sstrd⟩, ⟨.dstrd, dstrd⟩, ⟨.nreps, nreps⟩, ⟨.twod, 1#32⟩, ⟨.cfg, cfg⟩]

/-- The transfer that a call asks for. -/
def Copy.transfer : Copy → Transfer
  | .memcpyAsync dest src n => .oned (src.setWidth 64) (dest.setWidth 64) n 0
  | .memcpy2dAsync src dst size sstrd dstrd nreps cfg => .twod src dst size sstrd dstrd nreps cfg

/-- The calls that put a request into `stat_q` and wait for the answer. -/
inductive Asker
  | dmWait
  | dmWaitReady
  deriving DecidableEq, Repr

def Asker.statQ : Asker → EnStat
  | .dmWait => .waitIdle
  | .dmWaitReady => .ready

inductive Call
  | copy (c : Copy)
  | dmStart
  | ask (a : Asker)
  | dmExit
  deriving DecidableEq, Repr

/-- Who called `wake_dm`; `dm_wait` does so twice. -/
inductive Waker
  | dmStart
  | dmWait
  | ask (a : Asker)
  | dmExit
  deriving DecidableEq, Repr

inductive HartPc
  | idle
  | pollFill (c : Copy)
  | lock (c : Copy)
  | insert (c : Copy) (todo : List Write)
  | bumpFront
  | release
  | wakeLoad (w : Waker)
  | wakeSet (w : Waker)
  | waitFill
  | waitStat
  | lockAsk (a : Asker)
  | clearPvalid (a : Asker)
  | request (a : Asker)
  | waitPvalid (a : Asker)
  | releaseAsk (a : Asker)
  | requestExit
  deriving DecidableEq, Repr

/-- A hart: where it is, and the calls it still has to make. -/
structure Hart where
  pc : HartPc
  todo : List Call
  deriving DecidableEq, Repr

/-- The first access of a call. -/
def Call.enter : Call → HartPc
  | .copy c => .pollFill c
  | .dmStart => .wakeLoad .dmStart
  | .ask .dmWait => .wakeLoad .dmWait
  | .ask .dmWaitReady => .lockAsk .dmWaitReady
  | .dmExit => .requestExit

/-- The first access after `wake_dm`. -/
def Waker.next : Waker → HartPc
  | .dmStart | .dmExit => .idle
  | .dmWait => .waitFill
  | .ask a => .waitPvalid a

/-- The next access of a hart, and the task that it has queued thereby. -/
def hartStep (s : Shared) (h : Hart) : Option (Hart × Shared × Option Copy) :=
  match h.pc with
  | .idle =>
    match h.todo with
    | [] => none
    | call :: todo => some ({ pc := call.enter, todo }, s, none)
  | .pollFill c =>
    if s.queueFill < BitVec.ofNat 32 dmTaskQueueSize then some ({ h with pc := .lock c }, s, none)
    else none
  | .lock c =>
    if s.mutex then none
    else some ({ h with pc := .insert c c.writes }, { s with mutex := true }, none)
  | .insert c (w :: todo) =>
    let slot := (s.queue s.queueFront).write w
    some ({ h with pc := .insert c todo },
      { s with queue := Function.update s.queue s.queueFront slot }, none)
  | .insert c [] => some ({ h with pc := .bumpFront }, { s with queueFill := s.queueFill + 1 }, some c)
  | .bumpFront => some ({ h with pc := .release }, { s with queueFront := s.queueFront + 1 }, none)
  | .release => some ({ h with pc := .idle }, { s with mutex := false }, none)
  | .wakeLoad w => if s.dmWfi = 0 then none else some ({ h with pc := .wakeSet w }, s, none)
  | .wakeSet w => some ({ h with pc := w.next }, { s with clint := true }, none)
  | .waitFill => if s.queueFill = 0 then some ({ h with pc := .waitStat }, s, none) else none
  | .waitStat =>
    if s.statQ = none then some ({ h with pc := .lockAsk .dmWait }, s, none) else none
  | .lockAsk a =>
    if s.mutex then none
    else some ({ h with pc := .clearPvalid a }, { s with mutex := true }, none)
  | .clearPvalid a => some ({ h with pc := .request a }, { s with statPvalid := false }, none)
  | .request a => some ({ h with pc := .wakeLoad (.ask a) }, { s with statQ := some a.statQ }, none)
  | .waitPvalid a => if s.statPvalid then some ({ h with pc := .releaseAsk a }, s, none) else none
  | .releaseAsk _ => some ({ h with pc := .idle }, { s with mutex := false }, none)
  | .requestExit => some ({ h with pc := .wakeLoad .dmExit }, { s with statQ := some .exit }, none)

/-! ## The DM core -/

/-- The fields that are read of a task, after `twod`. -/
def fetches (twod : BitVec 32) : List Field :=
  if twod ≠ 0 then [.src, .dst, .size, .sstrd, .dstrd, .nreps, .cfg] else [.src, .dst, .size, .cfg]

inductive DmPc
  | testFill
  | wouldBlock
  | testTwod
  | fetch (todo : List Field) (t : DmTask)
  | bumpBack
  | decFill
  | testStat
  | switchStat
  | testBusy
  | setPvalid
  | clearStat
  | sleepFill
  | sleepStat
  | incWfi
  | wfi
  | clr
  | subWfi
  | exited

structure DmCore where
  pc : DmPc
  doExit : Bool

/-- The engine: what it was given, and how many of them it has completed, in order. -/
structure Engine where
  issued : List Transfer
  completed : Nat
  deriving DecidableEq, Repr

def Engine.busy (e : Engine) : Bool := decide (e.completed < e.issued.length)

/-- The end of the body of the loop. -/
def DmCore.loop (d : DmCore) : DmCore := { d with pc := if d.doExit then .exited else .testFill }

/-- The next access of the DM core.  `full` says whether the engine would block. -/
def dmMain (full : Engine → Bool) (s : Shared) (e : Engine) (d : DmCore) :
    Option (DmCore × Shared × Engine) :=
  match d.pc with
  | .testFill => some ({ d with pc := if s.queueFill ≠ 0 then .wouldBlock else .testStat }, s, e)
  | .wouldBlock => if full e then none else some ({ d with pc := .testTwod }, s, e)
  | .testTwod =>
    let twod := s.queue s.queueBack .twod
    some ({ d with pc := .fetch (fetches twod) (DmTask.write (fun _ => 0) ⟨.twod, twod⟩) }, s, e)
  | .fetch (f :: todo) t =>
    some ({ d with pc := .fetch todo (t.write ⟨f, s.queue s.queueBack f⟩) }, s, e)
  | .fetch [] t => some ({ d with pc := .bumpBack }, s, { e with issued := e.issued ++ [t.transfer] })
  | .bumpBack => some ({ d with pc := .decFill }, { s with queueBack := s.queueBack + 1 }, e)
  | .decFill => some ({ d with pc := .testStat }, { s with queueFill := s.queueFill - 1 }, e)
  | .testStat =>
    some ({ d with pc := if s.statQ.isSome then .switchStat else .sleepFill }, s, e)
  | .switchStat =>
    match s.statQ with
    | some .waitIdle => some ({ d with pc := .testBusy }, s, e)
    | some .exit => some ({ pc := .sleepFill, doExit := true }, s, e)
    | some .ready => some ({ d with pc := .setPvalid }, s, e)
    | none => some ({ d with pc := .sleepFill }, s, e)
  | .testBusy => some ({ d with pc := if e.busy then .sleepFill else .setPvalid }, s, e)
  | .setPvalid => some ({ d with pc := .clearStat }, { s with statPvalid := true }, e)
  | .clearStat => some ({ d with pc := .sleepFill }, { s with statQ := none }, e)
  | .sleepFill => some (if s.queueFill = 0 then { d with pc := .sleepStat } else d.loop, s, e)
  | .sleepStat => some (if s.statQ = none then { d with pc := .incWfi } else d.loop, s, e)
  | .incWfi => some ({ d with pc := .wfi }, { s with dmWfi := s.dmWfi + 1 }, e)
  | .wfi => if s.clint then some ({ d with pc := .clr }, s, e) else none
  | .clr => some ({ d with pc := .subWfi }, { s with clint := false }, e)
  | .subWfi => some (d.loop, { s with dmWfi := s.dmWfi - 1 }, e)
  | .exited => none

/-! ## Together -/

/-- The DM core, its engine and `n` harts. -/
structure State (n : Nat) where
  shared : Shared
  dm : DmCore
  engine : Engine
  harts : Fin n → Hart
  queued : List (Fin n × Copy)

inductive Label (n : Nat)
  | dm
  | engine
  | hart (i : Fin n)
  deriving DecidableEq, Repr

def dataMover (full : Engine → Bool) (n : Nat) : Interleaving (State n) (Label n) where
  step
    | .dm, s => (dmMain full s.shared s.engine s.dm).map
        fun (dm, shared, engine) => { s with dm, shared, engine }
    | .engine, s =>
      if s.engine.busy then
        some { s with engine := { s.engine with completed := s.engine.completed + 1 } }
      else none
    | .hart i, s => (hartStep s.shared (s.harts i)).map fun (hart, shared, queued) =>
      { s with shared, harts := Function.update s.harts i hart
               queued := s.queued ++ queued.toList.map (i, ·) }

/-- After `dm_init`. -/
def start {n : Nat} (program : Fin n → List Call) : State n where
  shared := { queue := fun _ _ => 0, queueBack := 0, queueFront := 0, queueFill := 0, mutex := false,
              statQ := none, statPvalid := false, dmWfi := 0, clint := false }
  dm := { pc := .testFill, doExit := false }
  engine := { issued := [], completed := 0 }
  harts i := { pc := .idle, todo := program i }
  queued := []

/-! ## Slots -/

/-- The writes of a call leave its task in the slot. -/
theorem transfer_writes (c : Copy) (slot : DmTask) :
    (c.writes.foldl DmTask.write slot).transfer = c.transfer := by
  cases c <;> rfl

/-- What the DM core has read of a slot once it has read the fields `todo` too. -/
def fetchAll (slot : DmTask) (todo : List Field) (t : DmTask) : DmTask :=
  todo.foldl (fun t f => t.write ⟨f, slot f⟩) t

/-- The fields that the DM core reads are those that matter. -/
theorem transfer_fetches (slot : DmTask) :
    (fetchAll slot (fetches (slot .twod)) (DmTask.write (fun _ => 0) ⟨.twod, slot .twod⟩)).transfer =
      slot.transfer := by
  by_cases twod : (slot .twod : BitVec 32) = 0
  · have order : fetches (slot .twod) = [.src, .dst, .size, .cfg] := if_neg (not_not.mpr twod)
    have oned : slot.transfer = .oned (slot .src) (slot .dst) (slot .size) (slot .cfg) :=
      if_neg (not_not.mpr twod)
    rw [order, oned]
    exact if_neg (not_not.mpr twod)
  · have order : fetches (slot .twod) = [.src, .dst, .size, .sstrd, .dstrd, .nreps, .cfg] :=
      if_pos twod
    rw [order]
    rfl

/-! ## The DM core's side of the ring -/

/-- Issued, but still counted in `queue_fill`. -/
def DmPc.lag : DmPc → Nat
  | .bumpBack | .decFill => 1
  | _ => 0

/-- Issued, but `queue_back` does not say so yet. -/
def DmPc.ahead : DmPc → Fin dmTaskQueueSize
  | .bumpBack => 1
  | _ => 0

/-- What the DM core knows of the slot that it reads. -/
def Reads (s : Shared) : DmPc → Prop
  | .wouldBlock | .testTwod => s.queueFill ≠ 0
  | .fetch todo t => s.queueFill ≠ 0 ∧
      (fetchAll (s.queue s.queueBack) todo t).transfer = (s.queue s.queueBack).transfer
  | _ => True

/-- Of the tasks in `queued` all but those in `pending` have been issued, and the slots hold these. -/
structure Consumer (queued : List Transfer) (s : Shared) (e : Engine) (pc : DmPc)
    (pending : List Transfer) : Prop where
  queued : queued = e.issued ++ pending
  holds : Ring.Holds (fun c => (s.queue c).transfer) e.issued.length pending
  fill : s.queueFill.toNat = pending.length + pc.lag
  back : Ring.cell dmTaskQueueSize e.issued.length = s.queueBack + pc.ahead
  reads : Reads s pc

section Consumer

variable {queued : List Transfer} {s s' : Shared} {e e' : Engine} {pc pc' : DmPc} {d d' : DmCore}
  {pending : List Transfer}

/-- A step that leaves the ring alone. -/
theorem Consumer.move (inv : Consumer queued s e pc pending) (lag : pc'.lag = pc.lag)
    (ahead : pc'.ahead = pc.ahead) (queue : s'.queue = s.queue) (back : s'.queueBack = s.queueBack)
    (fill : s'.queueFill = s.queueFill) (issued : e'.issued = e.issued) (reads : Reads s' pc') :
    Consumer queued s' e' pc' pending where
  queued := by rw [issued]; exact inv.queued
  holds := by rw [issued, queue]; exact inv.holds
  fill := by rw [fill, lag]; exact inv.fill
  back := by rw [issued, back, ahead]; exact inv.back
  reads := reads

theorem Consumer.of_fill (inv : Consumer queued s e pc pending) (some : s.queueFill ≠ 0)
    (lag : pc.lag = 0) : ∃ x rest, pending = x :: rest := by
  cases pending with
  | nil =>
    refine absurd (BitVec.eq_of_toNat_eq ?_) some
    rw [inv.fill, lag]
    rfl
  | cons x rest => exact ⟨x, rest, rfl⟩

theorem Consumer.fill_pred (inv : Consumer queued s e .decFill pending) :
    (s.queueFill - 1).toNat = pending.length := by
  have fill := inv.fill
  have one : (1#32).toNat = 1 := rfl
  have some : 1#32 ≤ s.queueFill := by
    rw [BitVec.le_def, fill, one]
    exact Nat.le_add_left _ _
  have less := BitVec.toNat_sub_of_le some
  rw [fill] at less
  exact less

/-- **The DM core issues the oldest task and no other.** -/
theorem dmMain_consumer {full : Engine → Bool} (inv : Consumer queued s e d.pc pending)
    (taken : dmMain full s e d = some (d', s', e')) :
    ∃ pending, Consumer queued s' e' d'.pc pending := by
  have loops : d.loop.pc = .exited ∨ d.loop.pc = .testFill := by
    unfold DmCore.loop
    split <;> simp
  cases pc : d.pc <;> rw [pc] at inv <;> simp only [dmMain, pc, Option.ite_none_left_eq_some,
    Option.ite_none_right_eq_some, Option.some.injEq, Prod.mk.injEq, reduceCtorEq] at taken
  case testFill =>
    obtain ⟨rfl, rfl, rfl⟩ := taken
    refine ⟨pending, ?_⟩
    by_cases empty : s.queueFill = 0
    · rw [if_neg (not_not.mpr empty)]
      exact inv.move rfl rfl rfl rfl rfl rfl trivial
    · rw [if_pos empty]
      exact inv.move rfl rfl rfl rfl rfl rfl empty
  case wouldBlock =>
    obtain ⟨-, rfl, rfl, rfl⟩ := taken
    exact ⟨pending, inv.move rfl rfl rfl rfl rfl rfl inv.reads⟩
  case testTwod =>
    obtain ⟨rfl, rfl, rfl⟩ := taken
    exact ⟨pending, inv.move rfl rfl rfl rfl rfl rfl ⟨inv.reads, transfer_fetches _⟩⟩
  case fetch todo t =>
    obtain ⟨some, reads⟩ := inv.reads
    cases todo with
    | cons f todo =>
      cases taken
      exact ⟨pending, inv.move rfl rfl rfl rfl rfl rfl ⟨some, reads⟩⟩
    | nil =>
      cases taken
      obtain ⟨x, rest, rfl⟩ := inv.of_fill some rfl
      have oldest : t.transfer = x := by
        have back : Ring.cell dmTaskQueueSize e.issued.length = s.queueBack :=
          inv.back.trans (Fin.add_zero _)
        have first := inv.holds.head
        simp only [back] at first
        exact reads.trans first
      have one : (e.issued ++ [t.transfer]).length = e.issued.length + 1 := by simp
      refine ⟨rest, ?_, ?_, ?_, ?_, trivial⟩
      · rw [inv.queued, oldest]
        simp
      · rw [one]
        exact inv.holds.tail
      · exact inv.fill
      · have back := inv.back
        rw [one, Ring.cell_succ, back]
        simp [DmPc.ahead]
  case bumpBack =>
    obtain ⟨rfl, rfl, rfl⟩ := taken
    exact ⟨pending, inv.queued, inv.holds, inv.fill, inv.back.trans (Fin.add_zero _).symm, trivial⟩
  case decFill =>
    obtain ⟨rfl, rfl, rfl⟩ := taken
    exact ⟨pending, inv.queued, inv.holds, inv.fill_pred, inv.back, trivial⟩
  case testStat =>
    obtain ⟨rfl, rfl, rfl⟩ := taken
    refine ⟨pending, ?_⟩
    by_cases asked : s.statQ.isSome
    · rw [if_pos asked]
      exact inv.move rfl rfl rfl rfl rfl rfl trivial
    · rw [if_neg asked]
      exact inv.move rfl rfl rfl rfl rfl rfl trivial
  case switchStat =>
    refine ⟨pending, ?_⟩
    split at taken <;> cases taken <;> exact inv.move rfl rfl rfl rfl rfl rfl trivial
  case testBusy =>
    obtain ⟨rfl, rfl, rfl⟩ := taken
    refine ⟨pending, ?_⟩
    by_cases busy : e.busy
    · rw [if_pos busy]
      exact inv.move rfl rfl rfl rfl rfl rfl trivial
    · rw [if_neg busy]
      exact inv.move rfl rfl rfl rfl rfl rfl trivial
  case setPvalid | clearStat | incWfi | clr =>
    obtain ⟨rfl, rfl, rfl⟩ := taken
    exact ⟨pending, inv.move rfl rfl rfl rfl rfl rfl trivial⟩
  case wfi =>
    obtain ⟨-, rfl, rfl, rfl⟩ := taken
    exact ⟨pending, inv.move rfl rfl rfl rfl rfl rfl trivial⟩
  case sleepFill | sleepStat =>
    obtain ⟨rfl, rfl, rfl⟩ := taken
    refine ⟨pending, ?_⟩
    split
    · exact inv.move rfl rfl rfl rfl rfl rfl trivial
    · rcases loops with loops | loops <;> rw [loops] <;>
        exact inv.move rfl rfl rfl rfl rfl rfl trivial
  case subWfi =>
    obtain ⟨rfl, rfl, rfl⟩ := taken
    refine ⟨pending, ?_⟩
    rcases loops with loops | loops <;> rw [loops] <;>
      exact inv.move rfl rfl rfl rfl rfl rfl trivial

end Consumer

/-! ## The lock -/

/-- The harts that hold the lock. -/
def Locked : HartPc → Prop
  | .insert _ _ | .bumpFront | .release | .clearPvalid _ | .request _ | .wakeLoad (.ask _)
  | .wakeSet (.ask _) | .waitPvalid _ | .releaseAsk _ => True
  | _ => False

/-- At most one hart holds the lock. -/
structure Exclusive {n : Nat} (s : State n) : Prop where
  locked : ∀ i, Locked (s.harts i).pc → s.shared.mutex = true
  one : ∀ i j, Locked (s.harts i).pc → Locked (s.harts j).pc → i = j

section Lock

variable {n : Nat} {s : State n} {sh sh' : Shared} {h h' : Hart} {new : Option Copy}

theorem not_locked_enter (c : Call) : ¬Locked c.enter := by
  rcases c with c | - | ⟨⟨⟩⟩ | - <;> exact id

theorem locked_next (w : Waker) : Locked w.next ↔ Locked (.wakeSet w) := by
  cases w <;> exact Iff.rfl

/-- A step leaves the lock alone, takes it or gives it back. -/
theorem hartStep_lock (taken : hartStep sh h = some (h', sh', new)) :
    (Locked h'.pc ↔ Locked h.pc) ∧ sh'.mutex = sh.mutex ∨
      ¬Locked h.pc ∧ sh.mutex = false ∧ sh'.mutex = true ∨ Locked h.pc ∧ ¬Locked h'.pc := by
  cases pc : h.pc <;> simp only [hartStep, pc, Option.ite_none_left_eq_some,
    Option.ite_none_right_eq_some, Option.some.injEq, Prod.mk.injEq] at taken
  case idle =>
    split at taken
    · cases taken
    · cases taken
      exact Or.inl ⟨iff_of_false (not_locked_enter _) id, rfl⟩
  case insert c todo => cases todo <;> cases taken <;> exact Or.inl ⟨Iff.rfl, rfl⟩
  case lock | lockAsk =>
    obtain ⟨free, rfl, rfl, -⟩ := taken
    exact Or.inr (Or.inl ⟨id, Bool.eq_false_iff.mpr free, rfl⟩)
  case release | releaseAsk =>
    obtain ⟨rfl, -, -⟩ := taken
    exact Or.inr (Or.inr ⟨trivial, id⟩)
  case wakeLoad w =>
    obtain ⟨-, rfl, rfl, -⟩ := taken
    exact Or.inl ⟨by cases w <;> exact Iff.rfl, rfl⟩
  case wakeSet w =>
    obtain ⟨rfl, rfl, -⟩ := taken
    exact Or.inl ⟨locked_next w, rfl⟩
  case pollFill | waitFill | waitStat | waitPvalid =>
    obtain ⟨-, rfl, rfl, -⟩ := taken
    exact Or.inl ⟨Iff.rfl, rfl⟩
  case bumpFront | clearPvalid | request | requestExit =>
    obtain ⟨rfl, rfl, -⟩ := taken
    exact Or.inl ⟨Iff.rfl, rfl⟩

theorem Exclusive.hart (inv : Exclusive s) {i : Fin n}
    (taken : hartStep s.shared (s.harts i) = some (h, sh, new)) (queued : List (Fin n × Copy)) :
    Exclusive { s with shared := sh, harts := Function.update s.harts i h, queued } := by
  -- what the others see of the lock
  have others : ∀ j, j ≠ i → Locked (s.harts j).pc → sh.mutex = true ∧ ¬Locked h.pc := by
    intro j apart locked
    rcases hartStep_lock taken with ⟨same, mutex⟩ | ⟨-, free, -⟩ | ⟨mine, -⟩
    · exact ⟨mutex.trans (inv.locked j locked), fun now => apart (inv.one j i locked (same.mp now))⟩
    · rw [inv.locked j locked] at free
      cases free
    · exact absurd (inv.one j i locked mine) apart
  constructor
  · refine forall_update (fun _ (h : Hart) => Locked h.pc → sh.mutex = true) (fun now => ?_)
      fun j apart locked => (others j apart locked).1
    rcases hartStep_lock taken with ⟨same, mutex⟩ | ⟨-, -, set⟩ | ⟨-, out⟩
    · exact mutex.trans (inv.locked i (same.mp now))
    · exact set
    · exact absurd now out
  · intro j k first second
    by_cases at_j : j = i <;> by_cases at_k : k = i
    · exact at_j.trans at_k.symm
    · subst at_j
      simp only [Function.update_self, Function.update_of_ne at_k] at first second
      exact absurd first (others k at_k second).2
    · subst at_k
      simp only [Function.update_self, Function.update_of_ne at_j] at first second
      exact absurd second (others j at_j first).2
    · simp only [Function.update_of_ne at_j, Function.update_of_ne at_k] at first second
      exact inv.one j k first second

end Lock

/-! ## The harts' side of the ring -/

/-- A hart that begins to fill a slot still finds one free. -/
def TestHolds {n : Nat} (s : State n) : Label n → Prop
  | .hart i =>
    match (s.harts i).pc with
    | .insert c todo => todo = c.writes → s.shared.queueFill < BitVec.ofNat 32 dmTaskQueueSize
    | _ => True
  | _ => True

instance {n : Nat} (s : State n) (l : Label n) : Decidable (TestHolds s l) := by
  unfold TestHolds
  split
  · split <;> infer_instance
  · infer_instance

/-- What a hart knows of the slot that it fills. -/
def Fills (s : Shared) (c : Copy) (todo : List Write) : Prop :=
  (todo ≠ c.writes → s.queueFill.toNat < dmTaskQueueSize) ∧
    (todo.foldl DmTask.write (s.queue s.queueFront)).transfer = c.transfer

structure Producers {n : Nat} (s : State n) : Prop where
  small : s.shared.queueFill.toNat ≤ dmTaskQueueSize
  bumped : ∀ i, (s.harts i).pc = .bumpFront →
    Ring.cell dmTaskQueueSize s.queued.length = s.shared.queueFront + 1
  settled : (∀ i, (s.harts i).pc ≠ .bumpFront) →
    Ring.cell dmTaskQueueSize s.queued.length = s.shared.queueFront
  fills : ∀ i c todo, (s.harts i).pc = .insert c todo → Fills s.shared c todo

/-- What has been queued, in the order of the lock. -/
def State.transfers {n : Nat} (s : State n) : List Transfer := s.queued.map fun q => q.2.transfer

/-- **The invariant of the ring.** -/
structure Inv {n : Nat} (s : State n) : Prop where
  lock : Exclusive s
  producers : Producers s
  consumer : ∃ pending, Consumer s.transfers s.shared s.engine s.dm.pc pending

section Producers

variable {n : Nat} {s : State n}

/-- A step of a hart that leaves the ring alone. -/
theorem Inv.move (inv : Inv s) {i : Fin n} {h : Hart} {sh : Shared}
    (lock : Exclusive { s with shared := sh, harts := Function.update s.harts i h })
    (queue : sh.queue = s.shared.queue) (back : sh.queueBack = s.shared.queueBack)
    (front : sh.queueFront = s.shared.queueFront) (fill : sh.queueFill = s.shared.queueFill)
    (was : (s.harts i).pc ≠ .bumpFront) (is : h.pc ≠ .bumpFront)
    (fills : ∀ c todo, h.pc = .insert c todo → Fills s.shared c todo) :
    Inv { s with shared := sh, harts := Function.update s.harts i h } where
  lock := lock
  producers := by
    have same : ∀ c todo, Fills s.shared c todo → Fills sh c todo := by
      intro c todo fills
      unfold Fills
      rw [fill, queue, front]
      exact fills
    refine ⟨fill ▸ inv.producers.small, ?_, fun none => ?_, ?_⟩
    · rw [front]
      exact forall_update (fun _ (h : Hart) => h.pc = .bumpFront → _) (fun at_ => absurd at_ is)
        fun j _ => inv.producers.bumped j
    · rw [front]
      refine inv.producers.settled fun j => ?_
      by_cases at_j : j = i
      · subst at_j
        exact was
      · have out := none j
        simp only [Function.update_of_ne at_j] at out
        exact out
    · exact forall_update (fun _ (h : Hart) => ∀ c todo, h.pc = .insert c todo → Fills sh c todo)
        (fun c todo at_ => same c todo (fills c todo at_))
        fun j _ c todo at_ => same c todo (inv.producers.fills j c todo at_)
  consumer := by
    obtain ⟨pending, consumer⟩ := inv.consumer
    refine ⟨pending, consumer.move rfl rfl queue back fill rfl ?_⟩
    have reads := consumer.reads
    unfold Reads at reads ⊢
    simp only [fill, queue, back]
    exact reads

section

variable (inv : Inv s) {i : Fin n} (locked : Locked (s.harts i).pc)

include inv locked

/-- What a hart at the slot knows of the others: none is there, and `queue_front` is theirs too. -/
theorem Inv.front (here : (s.harts i).pc ≠ .bumpFront) :
    Ring.cell dmTaskQueueSize s.queued.length = s.shared.queueFront := by
  refine inv.producers.settled fun j at_ => here ?_
  have same := inv.lock.one j i (at_ ▸ trivial) locked
  exact same ▸ at_

theorem Inv.others {j : Fin n} (apart : j ≠ i) : ¬Locked (s.harts j).pc := fun also => apart (inv.lock.one j i also locked)

/-- The slot of a hart is the one behind those that are pending. -/
theorem Inv.behind (here : (s.harts i).pc ≠ .bumpFront) {pending : List Transfer}
    (consumer : Consumer s.transfers s.shared s.engine s.dm.pc pending) :
    Ring.cell dmTaskQueueSize (s.engine.issued.length + pending.length) = s.shared.queueFront := by
  rw [← inv.front locked here, ← List.length_append, ← consumer.queued, State.transfers,
    List.length_map]

end

/-- The DM core reads another slot than the one that is written. -/
theorem Reads.write {sh : Shared} {pc : DmPc} (reads : Reads sh pc) {slot : Fin dmTaskQueueSize}
    {t : DmTask}
    (apart : sh.queueFill ≠ 0 → pc.lag = 0 ∧ pc.ahead = 0 → sh.queueBack ≠ slot) :
    Reads { sh with queue := Function.update sh.queue slot t } pc := by
  cases pc <;> try exact reads
  case fetch todo got =>
    have ne := apart reads.1 ⟨rfl, rfl⟩
    simp only [Reads, Function.update_of_ne ne]
    exact reads

/-- A hart writes a field of its slot. -/
theorem Inv.write (inv : Inv s) {i : Fin n} {c : Copy} {w : Write} {todo : List Write}
    (pc : (s.harts i).pc = .insert c (w :: todo)) (free : TestHolds s (.hart i)) {h : Hart}
    {sh : Shared} {new : Option Copy} (taken : hartStep s.shared (s.harts i) = some (h, sh, new)) :
    Inv { s with shared := sh, harts := Function.update s.harts i h
                 queued := s.queued ++ new.toList.map (i, ·) } := by
  have locked : Locked (s.harts i).pc := pc ▸ trivial
  have front := inv.front locked (by simp [pc])
  have lock := inv.lock.hart taken (s.queued ++ new.toList.map (i, ·))
  obtain ⟨fresh, fills⟩ := inv.producers.fills i _ _ pc
  have room : s.shared.queueFill.toNat < dmTaskQueueSize := by
    by_cases first : w :: todo = c.writes
    · simp only [TestHolds, pc] at free
      exact free first
    · exact fresh first
  simp only [hartStep, pc, Option.some.injEq, Prod.mk.injEq] at taken
  obtain ⟨rfl, rfl, rfl⟩ := taken
  simp only [Option.toList_none, List.map_nil, List.append_nil] at lock ⊢
  obtain ⟨pending, consumer⟩ := inv.consumer
  have behind := inv.behind locked (by simp [pc]) consumer
  have few : pending.length < dmTaskQueueSize := by
    have fill := consumer.fill
    omega
  refine ⟨lock, ⟨inv.producers.small, ?_, fun _ => front, ?_⟩, pending, consumer.queued, ?_,
    consumer.fill, consumer.back, ?_⟩
  · exact forall_update (fun _ (h : Hart) => h.pc = .bumpFront → _) (by simp)
      fun j _ => inv.producers.bumped j
  · refine forall_update (fun _ (h : Hart) => ∀ c todo, h.pc = .insert c todo → Fills _ c todo) ?_ ?_
    · intro c todo at_
      cases at_
      refine ⟨fun _ => room, ?_⟩
      simp only [Function.update_self]
      exact fills
    · intro j apart c todo at_
      exact absurd (at_ ▸ trivial) (inv.others locked apart)
  · refine consumer.holds.write few fun slot apart => ?_
    rw [behind] at apart
    simp only [Function.update_of_ne apart]
  · refine consumer.reads.write fun nonempty quiet => ?_
    obtain ⟨x, rest, rfl⟩ := consumer.of_fill nonempty quiet.1
    have back : Ring.cell dmTaskQueueSize s.engine.issued.length = s.shared.queueBack := by
      rw [consumer.back, quiet.2]
      exact Fin.add_zero _
    rw [← back, ← behind]
    exact Ring.cell_ne (Nat.lt_add_of_pos_right (Nat.zero_lt_succ _)) (Nat.add_lt_add_left few _)

/-- A hart counts its task in. -/
theorem Inv.bumpFill (inv : Inv s) {i : Fin n} {c : Copy} (pc : (s.harts i).pc = .insert c [])
    {h : Hart} {sh : Shared} {new : Option Copy}
    (taken : hartStep s.shared (s.harts i) = some (h, sh, new)) :
    Inv { s with shared := sh, harts := Function.update s.harts i h
                 queued := s.queued ++ new.toList.map (i, ·) } := by
  have locked : Locked (s.harts i).pc := pc ▸ trivial
  have front := inv.front locked (by simp [pc])
  have lock := inv.lock.hart taken (s.queued ++ new.toList.map (i, ·))
  obtain ⟨fresh, fills⟩ := inv.producers.fills i _ _ pc
  have room : s.shared.queueFill.toNat < dmTaskQueueSize := fresh (by cases c <;> simp [Copy.writes])
  simp only [hartStep, pc, Option.some.injEq, Prod.mk.injEq] at taken
  obtain ⟨rfl, rfl, rfl⟩ := taken
  simp only [Option.toList_some, List.map_cons, List.map_nil] at lock ⊢
  obtain ⟨pending, consumer⟩ := inv.consumer
  have behind := inv.behind locked (by simp [pc]) consumer
  have fill : (s.shared.queueFill + 1).toNat = s.shared.queueFill.toNat + 1 := by
    have size : dmTaskQueueSize = 4 := rfl
    exact BitVec.toNat_add_of_lt (by simp; omega)
  refine ⟨lock, ⟨?_, ?_, ?_, ?_⟩, pending ++ [c.transfer], ?_, ?_, ?_, consumer.back, ?_⟩
  · exact fill ▸ room
  · intro j _
    rw [List.length_append, List.length_singleton, Ring.cell_succ, front]
  · intro none
    exact absurd (by simp) (none i)
  · refine forall_update (fun _ (h : Hart) => ∀ c todo, h.pc = .insert c todo → Fills _ c todo)
      (by simp) fun j apart c todo at_ => ?_
    exact absurd (at_ ▸ trivial) (inv.others locked apart)
  · simp [State.transfers, ← List.append_assoc, ← consumer.queued]
  · refine consumer.holds.append ?_
    simp only [behind]
    exact fills
  · rw [List.length_append, List.length_singleton, Nat.add_right_comm, ← consumer.fill]
    exact fill
  · have some : s.shared.queueFill + 1 ≠ 0 := by
      intro zero
      rw [zero] at fill
      cases fill
    have reads := consumer.reads
    unfold Reads at reads ⊢
    split at reads <;> simp_all

/-- A hart moves `queue_front` on. -/
theorem Inv.bumpFront (inv : Inv s) {i : Fin n} (pc : (s.harts i).pc = .bumpFront)
    {h : Hart} {sh : Shared} {new : Option Copy}
    (taken : hartStep s.shared (s.harts i) = some (h, sh, new)) :
    Inv { s with shared := sh, harts := Function.update s.harts i h
                 queued := s.queued ++ new.toList.map (i, ·) } := by
  have locked : Locked (s.harts i).pc := pc ▸ trivial
  have lock := inv.lock.hart taken (s.queued ++ new.toList.map (i, ·))
  simp only [hartStep, pc, Option.some.injEq, Prod.mk.injEq] at taken
  obtain ⟨rfl, rfl, rfl⟩ := taken
  simp only [Option.toList_none, List.map_nil, List.append_nil] at lock ⊢
  refine ⟨lock, ⟨inv.producers.small, ?_, fun _ => inv.producers.bumped i pc, ?_⟩, ?_⟩
  · refine forall_update (fun _ (h : Hart) => h.pc = .bumpFront → _) (by simp) fun j apart at_ => ?_
    exact absurd (at_ ▸ trivial) (inv.others locked apart)
  · refine forall_update (fun _ (h : Hart) => ∀ c todo, h.pc = .insert c todo → Fills _ c todo)
      (by simp) fun j apart c todo at_ => ?_
    exact absurd (at_ ▸ trivial) (inv.others locked apart)
  · obtain ⟨pending, consumer⟩ := inv.consumer
    exact ⟨pending, consumer.move rfl rfl rfl rfl rfl rfl consumer.reads⟩

theorem enter_ne (c : Call) : c.enter ≠ .bumpFront ∧ ∀ c' todo, c.enter ≠ .insert c' todo := by
  rcases c with c | - | ⟨⟨⟩⟩ | - <;> simp [Call.enter]

theorem next_ne (w : Waker) : w.next ≠ .bumpFront ∧ ∀ c todo, w.next ≠ .insert c todo := by
  cases w <;> simp [Waker.next]

/-- Only a hart at its slot touches the ring. -/
theorem hartStep_quiet {sh sh' : Shared} {h h' : Hart} {new : Option Copy}
    (taken : hartStep sh h = some (h', sh', new)) (slot : ∀ c todo, h.pc ≠ .insert c todo)
    (bump : h.pc ≠ .bumpFront) :
    new = none ∧ (sh'.queue = sh.queue ∧ sh'.queueBack = sh.queueBack ∧
        sh'.queueFront = sh.queueFront ∧ sh'.queueFill = sh.queueFill) ∧
      h'.pc ≠ .bumpFront ∧ ∀ c todo, h'.pc = .insert c todo → todo = c.writes := by
  cases pc : h.pc <;> simp only [hartStep, pc, Option.ite_none_left_eq_some,
    Option.ite_none_right_eq_some, Option.some.injEq, Prod.mk.injEq] at taken
  case insert c todo => exact absurd pc (slot c todo)
  case bumpFront => exact absurd pc bump
  case idle =>
    split at taken
    · cases taken
    next call todo _ =>
      cases taken
      exact ⟨rfl, ⟨rfl, rfl, rfl, rfl⟩, (enter_ne call).1,
        fun c todo at_ => absurd at_ ((enter_ne call).2 c todo)⟩
  case lock c =>
    obtain ⟨-, rfl, rfl, rfl⟩ := taken
    refine ⟨rfl, ⟨rfl, rfl, rfl, rfl⟩, by simp, fun c todo at_ => ?_⟩
    cases at_
    rfl
  case wakeSet w =>
    obtain ⟨rfl, rfl, rfl⟩ := taken
    exact ⟨rfl, ⟨rfl, rfl, rfl, rfl⟩, (next_ne w).1,
      fun c todo at_ => absurd at_ ((next_ne w).2 c todo)⟩
  case pollFill | wakeLoad | waitFill | waitStat | lockAsk | waitPvalid =>
    obtain ⟨-, rfl, rfl, rfl⟩ := taken
    exact ⟨rfl, ⟨rfl, rfl, rfl, rfl⟩, by simp, by simp⟩
  case release | clearPvalid | request | releaseAsk | requestExit =>
    obtain ⟨rfl, rfl, rfl⟩ := taken
    exact ⟨rfl, ⟨rfl, rfl, rfl, rfl⟩, by simp, by simp⟩

theorem Inv.hart (inv : Inv s) {i : Fin n} (free : TestHolds s (.hart i)) {t : State n}
    {full : Engine → Bool} (taken : (dataMover full n).step (.hart i) s = some t) : Inv t := by
  obtain ⟨⟨h, sh, new⟩, stepped, rfl⟩ := Option.map_eq_some_iff.mp taken
  by_cases slot : ∃ c todo, (s.harts i).pc = .insert c todo
  · obtain ⟨c, todo, pc⟩ := slot
    cases todo with
    | nil => exact inv.bumpFill pc stepped
    | cons w todo => exact inv.write pc free stepped
  by_cases bump : (s.harts i).pc = .bumpFront
  · exact inv.bumpFront bump stepped
  have elsewhere : ∀ c todo, (s.harts i).pc ≠ .insert c todo := fun c todo pc => slot ⟨c, todo, pc⟩
  obtain ⟨rfl, ⟨queue, back, front, fill⟩, is, fresh⟩ := hartStep_quiet stepped elsewhere bump
  simp only [Option.toList_none, List.map_nil, List.append_nil]
  refine inv.move (inv.lock.hart stepped _) queue back front fill bump is fun c todo at_ => ?_
  obtain rfl := fresh c todo at_
  exact ⟨fun same => absurd rfl same, transfer_writes c _⟩

/-- The DM core leaves to the harts what is theirs. -/
theorem dmMain_frame {full : Engine → Bool} {sh sh' : Shared} {e e' : Engine} {d d' : DmCore}
    (taken : dmMain full sh e d = some (d', sh', e')) :
    sh'.queue = sh.queue ∧ sh'.queueFront = sh.queueFront ∧ sh'.mutex = sh.mutex ∧
      (sh'.queueFill = sh.queueFill ∨ d.pc = .decFill ∧ sh'.queueFill = sh.queueFill - 1) := by
  cases pc : d.pc <;> simp only [dmMain, pc, Option.ite_none_left_eq_some,
    Option.ite_none_right_eq_some, Option.some.injEq, Prod.mk.injEq, reduceCtorEq] at taken
  case fetch todo t => cases todo <;> cases taken <;> exact ⟨rfl, rfl, rfl, Or.inl rfl⟩
  case switchStat => split at taken <;> cases taken <;> exact ⟨rfl, rfl, rfl, Or.inl rfl⟩
  case wouldBlock | wfi =>
    obtain ⟨-, -, rfl, -⟩ := taken
    exact ⟨rfl, rfl, rfl, Or.inl rfl⟩
  case decFill =>
    obtain ⟨-, rfl, -⟩ := taken
    exact ⟨rfl, rfl, rfl, Or.inr ⟨rfl, rfl⟩⟩
  all_goals
    obtain ⟨-, rfl, -⟩ := taken
    exact ⟨rfl, rfl, rfl, Or.inl rfl⟩

theorem Inv.dm (inv : Inv s) {t : State n} {full : Engine → Bool}
    (taken : (dataMover full n).step .dm s = some t) : Inv t := by
  obtain ⟨⟨d, sh, e⟩, stepped, rfl⟩ := Option.map_eq_some_iff.mp taken
  obtain ⟨pending, consumer⟩ := inv.consumer
  obtain ⟨queue, front, mutex, fill⟩ := dmMain_frame stepped
  have less : sh.queueFill.toNat ≤ s.shared.queueFill.toNat := by
    rcases fill with fill | ⟨pc, fill⟩
    · rw [fill]
    · rw [pc] at consumer
      rw [fill, consumer.fill_pred, consumer.fill]
      exact Nat.le_add_right _ _
  refine ⟨⟨?_, inv.lock.one⟩, ⟨less.trans inv.producers.small, ?_, ?_, ?_⟩,
    dmMain_consumer consumer stepped⟩
  · simp only [mutex]
    exact inv.lock.locked
  · simp only [front]
    exact inv.producers.bumped
  · simp only [front]
    exact inv.producers.settled
  · intro i c todo at_
    obtain ⟨fresh, fills⟩ := inv.producers.fills i c todo at_
    refine ⟨fun begun => less.trans_lt (fresh begun), ?_⟩
    rw [queue, front]
    exact fills

theorem Inv.engine (inv : Inv s) {t : State n} {full : Engine → Bool}
    (taken : (dataMover full n).step .engine s = some t) : Inv t := by
  simp only [dataMover, Option.ite_none_right_eq_some, Option.some.injEq] at taken
  obtain ⟨-, rfl⟩ := taken
  obtain ⟨pending, consumer⟩ := inv.consumer
  exact ⟨⟨inv.lock.locked, inv.lock.one⟩, ⟨inv.producers.small, inv.producers.bumped,
    inv.producers.settled, inv.producers.fills⟩, pending,
    consumer.move rfl rfl rfl rfl rfl rfl consumer.reads⟩

theorem Inv.step (inv : Inv s) {full : Engine → Bool} {l : Label n} (free : TestHolds s l)
    {t : State n} (taken : (dataMover full n).step l s = some t) : Inv t := by
  cases l with
  | dm => exact inv.dm taken
  | engine => exact inv.engine taken
  | hart i => exact inv.hart free taken

theorem inv_start (program : Fin n → List Call) : Inv (start program) where
  lock := ⟨fun _ locked => locked.elim, fun _ _ locked _ => locked.elim⟩
  producers := ⟨Nat.zero_le _, fun _ => by simp [start], fun _ => rfl, by simp [start]⟩
  consumer := ⟨[], rfl, Ring.holds_nil, rfl, rfl, trivial⟩

theorem inv_reaches {full : Engine → Bool} {program : Fin n → List Call}
    (reached : (dataMover full n).Reaches TestHolds (start program) s) : Inv s :=
  reached.invariant Inv (inv_start program) fun _ _ _ inv free taken => inv.step free taken

end Producers

/-! ## The task queue -/

/-- The queue is never over-full, what has been issued is what was queued first, and what has
not been is in its slots. -/
structure Intact {n : Nat} (s : State n) : Prop where
  fill : s.shared.queueFill ≤ BitVec.ofNat 32 dmTaskQueueSize
  issued : s.engine.issued <+: s.transfers
  slots : ∀ k, s.engine.issued.length ≤ k → ∀ h : k < s.transfers.length,
    (s.shared.queue (Ring.cell dmTaskQueueSize k)).transfer = s.transfers[k]
  /-- The slot that a hart is writing holds none of them. -/
  free : ∀ i c todo, (s.harts i).pc = .insert c todo → todo ≠ c.writes →
    ∀ k, s.engine.issued.length ≤ k → k < s.transfers.length →
      Ring.cell dmTaskQueueSize k ≠ s.shared.queueFront
  /-- When the queue is empty, all has been issued. -/
  empty : s.shared.queueFill = 0 → s.engine.issued = s.transfers

theorem Inv.intact {n : Nat} {s : State n} (inv : Inv s) : Intact s := by
  obtain ⟨pending, consumer⟩ := inv.consumer
  have size := congrArg List.length consumer.queued
  rw [List.length_append] at size
  refine ⟨inv.producers.small, ⟨pending, consumer.queued.symm⟩, fun k old h => ?_,
    fun i c todo pc begun k old h => ?_, fun none => ?_⟩
  · have slot := consumer.holds (k - s.engine.issued.length) (by omega)
    rw [Nat.add_sub_cancel' old] at slot
    refine slot.trans ?_
    simp only [consumer.queued, List.getElem_append_right old]
  · have locked : Locked (s.harts i).pc := pc ▸ trivial
    have room := (inv.producers.fills i c todo pc).1 begun
    have fill := consumer.fill
    rw [← inv.behind locked (by simp [pc]) consumer]
    exact Ring.cell_ne (by omega) (by omega)
  · have fill := consumer.fill
    rw [none] at fill
    have nothing : pending = [] := List.length_eq_zero_iff.mp (Nat.eq_zero_of_add_eq_zero fill.symm).1
    rw [consumer.queued, nothing, List.append_nil]

/-- **No task is lost**, in every run in which each hart still finds a slot free when it begins
to fill it. -/
theorem task_queue {n : Nat} {full : Engine → Bool} {program : Fin n → List Call} {s : State n}
    (reached : (dataMover full n).Reaches TestHolds (start program) s) : Intact s :=
  (inv_reaches reached).intact

/-- A one- and a two-dimensional copy of two harts are issued. -/
theorem task_queue_pair : ∃ s, (dataMover (fun _ => false) 2).Reaches TestHolds
    (start fun i => if i = 0 then [.copy (.memcpyAsync 0x100 0x200 64)]
      else [.copy (.memcpy2dAsync 0x300 0x400 8 16 32 4 0)]) s ∧
      s.engine.issued = [.oned 0x200 0x100 64 0, .twod 0x300 0x400 8 16 32 4 0] ∧ Intact s := by
  let system := dataMover (fun _ => false) 2
  let begin : State 2 := start fun i => if i = 0 then [.copy (.memcpyAsync 0x100 0x200 64)]
    else [.copy (.memcpy2dAsync 0x300 0x400 8 16 32 4 0)]
  let schedule : List (Label 2) := List.replicate 11 (.hart 0) ++ List.replicate 14 (.hart 1) ++
    List.replicate 14 .dm ++ List.replicate 11 .dm
  have ran : (system.run begin schedule).any (fun s => decide
      (s.engine.issued = [.oned 0x200 0x100 64 0, .twod 0x300 0x400 8 16 32 4 0])) = true := by
    decide
  obtain ⟨s, ran, issued⟩ := (Option.any_eq_true _ _).mp ran
  have reached : system.Reaches TestHolds begin s :=
    system.reaches_run schedule (by decide) ran
  exact ⟨s, reached, of_decide_eq_true issued, task_queue reached⟩

/-- Two harts see the last slot free and both take it: the first task is overwritten before it
is issued, and `queue_fill` is 5. -/
theorem task_queue_overflow : ∃ s, (dataMover (fun _ => false) 2).Reachable
    (start fun i => if i = 0 then List.replicate 4 (.copy (.memcpyAsync 0x100 0x200 64))
      else [.copy (.memcpyAsync 0x300 0x400 64)]) s ∧
      s.shared.queueFill = 5 ∧ s.transfers.head? = some (.oned 0x200 0x100 64 0) ∧
      s.engine.issued = [.oned 0x400 0x300 64 0] := by
  let system := dataMover (fun _ => false) 2
  let begin : State 2 := start fun i =>
    if i = 0 then List.replicate 4 (.copy (.memcpyAsync 0x100 0x200 64))
    else [.copy (.memcpyAsync 0x300 0x400 64)]
  let schedule : List (Label 2) := List.replicate 35 (.hart 0) ++ List.replicate 2 (.hart 1) ++
    List.replicate 9 (.hart 0) ++ List.replicate 9 (.hart 1) ++ List.replicate 8 .dm
  have ran : (system.run begin schedule).any (fun s => decide (s.shared.queueFill = 5 ∧
      s.transfers.head? = some (.oned 0x200 0x100 64 0) ∧
      s.engine.issued = [.oned 0x400 0x300 64 0])) = true := by
    decide
  obtain ⟨s, ran, overflows⟩ := (Option.any_eq_true _ _).mp ran
  exact ⟨s, system.reachable_run schedule ran, of_decide_eq_true overflows⟩

end SnitchCluster.Runtime.TaskQueue
