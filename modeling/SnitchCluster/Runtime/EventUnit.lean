/-
# Runtime.EventUnit -- parallel regions on the event unit

Core 0 pushes one event after the other and wakes the workers for each; a worker runs the
event if its index is below the number of threads, counts itself finished and sleeps.
The two sides agree through three counters and one interrupt bit a worker.  Each access
of the shared words is one step, a worker sleeps until its bit is set, and a spin that
finds its condition false is no step.

What a worker may be doing depends on where core 0 is only (`Phase`): `WorkerOk` says so,
the log of what a worker has called included, and `Inv` adds what the counters count.
The mask of `wake_workers` has 32 bits, so all of this is for up to 31 compute cores; with
32 the mask is empty (`fork_join_stuck`).
-/
import Mathlib.Algebra.Order.BigOperators.Group.Finset
import SnitchCluster.Theory.Interleaving

namespace SnitchCluster.Runtime.EventUnit

open Theory

/-! ## The shared words -/

/-- A call of a microtask wrapper. -/
structure Call where
  fn : BitVec 32
  data : BitVec 32
  argc : BitVec 32
  deriving DecidableEq, Repr

/-- What `parallelRegion` is called with. -/
structure Region extends Call where
  numThreads : BitVec 32
  deriving DecidableEq, Repr

/-- The event of `eu_t`. -/
structure Event extends Call where
  nthreads : BitVec 32
  finiCount : BitVec 32
  deriving DecidableEq, Repr

/-- `eu_t`, the pointer that publishes it, and the interrupts of the cluster. -/
structure Shared where
  euPGlobal : Bool
  workersInLoop : BitVec 32
  exitFlag : BitVec 32
  workersWfi : BitVec 32
  e : Event
  clClint : BitVec 32
  deriving DecidableEq, Repr

/-- `memset`, then the pointer. -/
def Shared.init (s : Shared) : Shared :=
  { s with euPGlobal := true, workersInLoop := 0, exitFlag := 0, workersWfi := 0,
           e := { fn := 0, data := 0, argc := 0, nthreads := 0, finiCount := 0 } }

/-- The mask of `wake_workers`. -/
def wakeMask (numcores : BitVec 32) : BitVec 32 :=
  ~~~1#32 &&& ((1#32 <<< (numcores.toNat % 32)) - 1#32)

def snrtIntClusterSet (mask : BitVec 32) (s : Shared) : Shared :=
  { s with clClint := s.clClint ||| mask }

def snrtIntClusterClr (mask : BitVec 32) (s : Shared) : Shared :=
  { s with clClint := s.clClint &&& ~~~mask }

/-! ## The workers -/

/-- Where a worker is in `snrt_omp_bootstrap` and `eu_event_loop`. -/
inductive WorkerPc
  | euInit
  | hwBarrier
  | addInLoop
  | testExit
  | testThreads
  | loadFn
  | loadData (fn : BitVec 32)
  | loadArgc (fn data : BitVec 32)
  | call (c : Call)
  | addFini
  | addWfi
  | wfi
  | clr
  | subWfi
  | left
  deriving DecidableEq, Repr

/-- A worker, and what it has called. -/
structure Worker where
  pc : WorkerPc
  calls : List Call
  deriving DecidableEq, Repr

/-- The next access of worker `idx`; the barrier opens when `arrived`. -/
def euEventLoop (idx : Nat) (arrived : Bool) (s : Shared) (w : Worker) : Option (Worker × Shared) :=
  match w.pc with
  | .euInit => if s.euPGlobal then some ({ w with pc := .hwBarrier }, s) else none
  | .hwBarrier => if arrived then some ({ w with pc := .addInLoop }, s) else none
  | .addInLoop => some ({ w with pc := .testExit }, { s with workersInLoop := s.workersInLoop + 1 })
  | .testExit => some ({ w with pc := if s.exitFlag ≠ 0 then .left else .testThreads }, s)
  | .testThreads => some ({ w with pc := if idx < s.e.nthreads.toNat then .loadFn else .addFini }, s)
  | .loadFn => some ({ w with pc := .loadData s.e.fn }, s)
  | .loadData fn => some ({ w with pc := .loadArgc fn s.e.data }, s)
  | .loadArgc fn data =>
    let c : Call := { fn, data, argc := s.e.argc }
    some ({ pc := .call c, calls := w.calls ++ [c] }, s)
  | .call _ => some ({ w with pc := .addFini }, s)
  | .addFini =>
    some ({ w with pc := .addWfi }, { s with e := { s.e with finiCount := s.e.finiCount + 1 } })
  | .addWfi => some ({ w with pc := .wfi }, { s with workersWfi := s.workersWfi + 1 })
  | .wfi => if s.clClint.getLsbD idx then some ({ w with pc := .clr }, s) else none
  | .clr => some ({ w with pc := .subWfi }, snrtIntClusterClr (1#32 <<< (idx % 32)) s)
  | .subWfi => some ({ w with pc := .testExit }, { s with workersWfi := s.workersWfi - 1 })
  | .left => none

/-! ## Core 0 -/

/-- Who called `eu_run_empty`. -/
inductive Caller
  | parallelRegion
  | euExit
  deriving DecidableEq, Repr

/-- Who called `wake_workers`. -/
inductive Waker
  | euRunEmpty (caller : Caller) (scratch : BitVec 32)
  | euExit
  deriving DecidableEq, Repr

/-- Where core 0 is in `snrt_omp_bootstrap`, its regions and `eu_exit`. -/
inductive MasterPc
  | euInit
  | hwBarrier
  | bootWait
  | idle
  | pushLoad
  | pushWait (scratch : BitVec 32)
  | pushFn
  | pushData
  | pushArgc
  | pushThreads
  | emptyLoad (caller : Caller)
  | emptyReset (caller : Caller) (scratch : BitVec 32)
  | wakeLoad (waker : Waker)
  | wakeWait (waker : Waker) (scratch : BitVec 32)
  | wakeSet (waker : Waker)
  | testThreads (caller : Caller) (scratch : BitVec 32)
  | loadFn (caller : Caller) (scratch : BitVec 32)
  | loadData (caller : Caller) (scratch fn : BitVec 32)
  | loadArgc (caller : Caller) (scratch fn data : BitVec 32)
  | call (caller : Caller) (scratch : BitVec 32) (c : Call)
  | emptyTest (caller : Caller) (scratch : BitVec 32)
  | emptyWait (caller : Caller) (scratch : BitVec 32)
  | emptyClear (caller : Caller)
  | exitTest
  | exitLoad
  | exitWait (scratch : BitVec 32)
  | exitFlag
  | done
  deriving DecidableEq, Repr

/-- Core 0: the regions it still has to run, those that `eu_run_empty` has returned from, and
what it has called itself. -/
structure Master where
  pc : MasterPc
  todo : List Region
  finished : List Region
  calls : List Call
  deriving DecidableEq, Repr

/-- `eu_run_empty` returns. -/
def Master.euRunEmptyReturns (m : Master) : Caller → Master
  | .parallelRegion =>
    { m with pc := .idle, todo := m.todo.tail, finished := m.finished ++ m.todo.take 1 }
  | .euExit => { m with pc := .exitLoad }

/-- The next access of core 0.  `todo` begins with the region it is in. -/
def masterStep (numcores : BitVec 32) (arrived : Bool) (s : Shared) (m : Master) :
    Option (Master × Shared) :=
  let region := m.todo.head?
  match m.pc with
  | .euInit => some ({ m with pc := .hwBarrier }, s.init)
  | .hwBarrier => if arrived then some ({ m with pc := .bootWait }, s) else none
  | .bootWait => if s.workersWfi = numcores - 1 then some ({ m with pc := .idle }, s) else none
  | .idle => some ({ m with pc := if m.todo.isEmpty then .exitTest else .pushLoad }, s)
  | .pushLoad => some ({ m with pc := .pushWait s.workersInLoop }, s)
  | .pushWait scratch =>
    if s.workersWfi = scratch then some ({ m with pc := .pushFn }, s) else none
  | .pushFn => region.map fun r => ({ m with pc := .pushData }, { s with e := { s.e with fn := r.fn } })
  | .pushData =>
    region.map fun r => ({ m with pc := .pushArgc }, { s with e := { s.e with data := r.data } })
  | .pushArgc =>
    region.map fun r => ({ m with pc := .pushThreads }, { s with e := { s.e with argc := r.argc } })
  | .pushThreads => region.map fun r =>
    ({ m with pc := .emptyLoad .parallelRegion }, { s with e := { s.e with nthreads := r.numThreads } })
  | .emptyLoad caller =>
    if s.e.nthreads = 0 then some (m.euRunEmptyReturns caller, s)
    else some ({ m with pc := .emptyReset caller s.e.nthreads }, s)
  | .emptyReset caller scratch =>
    some ({ m with pc := if 1#32 < scratch then .wakeLoad (.euRunEmpty caller scratch)
                         else .testThreads caller scratch },
      { s with e := { s.e with finiCount := 0 } })
  | .wakeLoad waker => some ({ m with pc := .wakeWait waker s.workersInLoop }, s)
  | .wakeWait waker scratch =>
    if s.workersWfi = scratch then some ({ m with pc := .wakeSet waker }, s) else none
  | .wakeSet (.euRunEmpty caller scratch) =>
    some ({ m with pc := .testThreads caller scratch }, snrtIntClusterSet (wakeMask numcores) s)
  | .wakeSet .euExit => some ({ m with pc := .done }, snrtIntClusterSet (wakeMask numcores) s)
  | .testThreads caller scratch =>
    some ({ m with pc := if 0#32 < s.e.nthreads then .loadFn caller scratch
                         else .emptyTest caller scratch }, s)
  | .loadFn caller scratch => some ({ m with pc := .loadData caller scratch s.e.fn }, s)
  | .loadData caller scratch fn => some ({ m with pc := .loadArgc caller scratch fn s.e.data }, s)
  | .loadArgc caller scratch fn data =>
    let c : Call := { fn, data, argc := s.e.argc }
    some ({ m with pc := .call caller scratch c, calls := m.calls ++ [c] }, s)
  | .call caller scratch _ => some ({ m with pc := .emptyTest caller scratch }, s)
  | .emptyTest caller scratch =>
    some ({ m with pc := if 1#32 < scratch then .emptyWait caller s.workersInLoop
                         else .emptyClear caller }, s)
  | .emptyWait caller scratch =>
    if s.e.finiCount = scratch then some ({ m with pc := .emptyClear caller }, s) else none
  | .emptyClear caller => some (m.euRunEmptyReturns caller, { s with e := { s.e with nthreads := 0 } })
  | .exitTest =>
    some ({ m with pc := if s.e.nthreads = 0 then .emptyLoad .euExit else .exitLoad }, s)
  | .exitLoad => some ({ m with pc := .exitWait s.workersInLoop }, s)
  | .exitWait scratch =>
    if s.workersWfi = scratch then some ({ m with pc := .exitFlag }, s) else none
  | .exitFlag => some ({ m with pc := .wakeLoad .euExit }, { s with exitFlag := 1 })
  | .done => none

/-! ## Together -/

/-- Core 0 and `n` workers. -/
structure State (n : Nat) where
  shared : Shared
  master : Master
  workers : Fin n → Worker

inductive Label (n : Nat)
  | master
  | worker (i : Fin n)
  deriving DecidableEq, Repr

/-- The index of a worker in the cluster. -/
def coreIdx {n : Nat} (i : Fin n) : Nat := i + 1

/-- All other cores are at the barrier of the bootstrap, or past it. -/
def arrived {n : Nat} (s : State n) : Bool :=
  decide (s.master.pc ≠ .euInit ∧ ∀ i, (s.workers i).pc ≠ .euInit)

def eventUnit (n : Nat) : Interleaving (State n) (Label n) where
  step
    | .master, s =>
      (masterStep (BitVec.ofNat 32 (n + 1)) (arrived s) s.shared s.master).map
        fun (master, shared) => { s with master, shared }
    | .worker i, s =>
      (euEventLoop (coreIdx i) (arrived s) s.shared (s.workers i)).map
        fun (worker, shared) => { s with shared, workers := Function.update s.workers i worker }

/-- Before the bootstrap: the event unit is not allocated, no interrupt is pending. -/
def start (n : Nat) (regions : List Region) (eu : Shared) : State n where
  shared := { eu with euPGlobal := false, clClint := 0 }
  master := { pc := .euInit, todo := regions, finished := [], calls := [] }
  workers _ := { pc := .euInit, calls := [] }

/-! ## What a worker may be doing -/

/-- What core `idx` has called after some regions. -/
def callsOf (idx : Nat) (regions : List Region) : List Call :=
  (regions.filter fun r => idx < r.numThreads.toNat).map Region.toCall

/-- What core 0's position says about the workers: they sleep, or all but sleep, with some
regions behind them; they run one; or they leave. -/
inductive Phase
  | start
  | boot
  | settling (settled : List Region)
  | asleep (settled : List Region)
  | awake (finished : List Region) (cur : Region)
  | leaving (finished : List Region)

/-- The region is run by core 0 alone, or by a team. -/
def Master.running (m : Master) (scratch : BitVec 32) : Phase :=
  match m.todo with
  | [] => .asleep m.finished
  | cur :: _ => if 1#32 < scratch then .awake m.finished cur else .asleep m.finished

def Master.phase (m : Master) : Phase :=
  match m.pc with
  | .euInit => .start
  | .hwBarrier | .bootWait => .boot
  | .idle | .pushLoad | .pushWait _ | .emptyLoad .euExit | .exitTest | .exitLoad | .exitWait _ =>
    .settling m.finished
  | .pushFn | .pushData | .pushArgc | .pushThreads | .emptyLoad .parallelRegion | .emptyReset _ _
  | .wakeLoad _ | .wakeWait _ _ | .wakeSet _ | .exitFlag => .asleep m.finished
  | .testThreads _ scratch | .loadFn _ scratch | .loadData _ scratch _ | .loadArgc _ scratch _ _
  | .call _ scratch _ | .emptyTest _ scratch => m.running scratch
  | .emptyWait _ _ => m.running 2#32
  | .emptyClear _ => .settling (m.finished ++ m.todo.take 1)
  | .done => .leaving m.finished

/-- A worker and its interrupt bit. -/
abbrev View := Bool × Worker

def State.view {n : Nat} (s : State n) (i : Fin n) : View :=
  (s.shared.clClint.getLsbD (coreIdx i), s.workers i)

/-- A worker that has finished its part of region `cur`. -/
def Past (idx : Nat) (finished : List Region) (cur : Region) (w : Worker) : Prop :=
  w.calls = callsOf idx (finished ++ [cur])

/-- A worker in the event loop, with region `cur` in the event. -/
def AwakeOk (finished : List Region) (cur : Region) (idx : Nat) (v : View) : Prop :=
  match v.2.pc with
  | .wfi => if v.1 then v.2.calls = callsOf idx finished else Past idx finished cur v.2
  | .clr => v.2.calls = callsOf idx finished
  | .subWfi | .testExit | .testThreads => v.1 = false ∧ v.2.calls = callsOf idx finished
  | .loadFn => v.1 = false ∧ v.2.calls = callsOf idx finished ∧ idx < cur.numThreads.toNat
  | .loadData fn =>
    v.1 = false ∧ v.2.calls = callsOf idx finished ∧ idx < cur.numThreads.toNat ∧ fn = cur.fn
  | .loadArgc fn data =>
    v.1 = false ∧ v.2.calls = callsOf idx finished ∧ idx < cur.numThreads.toNat ∧ fn = cur.fn ∧
      data = cur.data
  | .call c => v.1 = false ∧ Past idx finished cur v.2 ∧ idx < cur.numThreads.toNat ∧ c = cur.toCall
  | .addFini | .addWfi => v.1 = false ∧ Past idx finished cur v.2
  | _ => False

def WorkerOk : Phase → Nat → View → Prop
  | .start, _, v => v.1 = false ∧ v.2 = { pc := .euInit, calls := [] }
  | .boot, _, v => v.1 = false ∧ v.2.calls = [] ∧
      match v.2.pc with
      | .euInit | .hwBarrier | .addInLoop | .testExit | .testThreads | .addFini | .addWfi | .wfi => True
      | _ => False
  | .settling settled, idx, v =>
    v.1 = false ∧ v.2.calls = callsOf idx settled ∧ (v.2.pc = .addWfi ∨ v.2.pc = .wfi)
  | .asleep settled, idx, v => v.1 = false ∧ v.2.calls = callsOf idx settled ∧ v.2.pc = .wfi
  | .awake finished cur, idx, v => AwakeOk finished cur idx v
  | .leaving finished, idx, v => v.2.calls = callsOf idx finished ∧
      match v.2.pc with
      | .wfi => v.1 = true
      | .clr | .subWfi | .testExit | .left => True
      | _ => False

/-- What the workers read while core 0 is in a phase. -/
def SharedOk : Phase → Shared → Prop
  | .start, s => s.euPGlobal = false
  | .boot, s => s.euPGlobal = true ∧ s.exitFlag = 0 ∧ s.e.nthreads = 0
  | .settling _, _ | .asleep _, _ => True
  | .awake _ cur, s => s.exitFlag = 0 ∧ s.e.toCall = cur.toCall ∧ s.e.nthreads = cur.numThreads
  | .leaving _, s => s.exitFlag = 1

/-- The workers counted in `workers_in_loop`. -/
def InLoop (v : View) : Prop :=
  match v.2.pc with
  | .euInit | .hwBarrier | .addInLoop => False
  | _ => True

/-- The workers counted in `workers_wfi`. -/
def InWfi (v : View) : Prop :=
  match v.2.pc with
  | .wfi | .clr | .subWfi => True
  | _ => False

/-- The workers counted in `fini_count` while a team runs. -/
def Fini (v : View) : Prop :=
  match v.2.pc with
  | .addWfi => True
  | .wfi => v.1 = false
  | _ => False

instance : DecidablePred InLoop := fun v => by unfold InLoop; cases v.2.pc <;> infer_instance

instance : DecidablePred InWfi := fun v => by unfold InWfi; cases v.2.pc <;> infer_instance

instance : DecidablePred Fini := fun v => by unfold Fini; cases v.2.pc <;> infer_instance

/-! ## Interrupt bits -/

theorem getLsbD_clr {s : Shared} {idx j : Nat} (few : idx < 32) :
    (snrtIntClusterClr (1#32 <<< (idx % 32)) s).clClint.getLsbD j =
      (s.clClint.getLsbD j && decide (j ≠ idx)) := by
  have bit : (1#32 <<< (idx % 32)).getLsbD j = decide (j = idx) := by
    rw [Nat.mod_eq_of_lt few, BitVec.getLsbD_shiftLeft, BitVec.getLsbD_one]
    by_cases same : j = idx
    · subst same
      simp [few]
    · have apart : ¬(idx ≤ j ∧ j - idx = 0) := by omega
      simp [same]
      omega
  simp only [snrtIntClusterClr, BitVec.getLsbD_and, BitVec.getLsbD_not, bit]
  by_cases small : j < 32
  · by_cases same : j = idx <;> simp [same, small, few]
  · have out : s.clClint.getLsbD j = false := BitVec.getLsbD_of_ge _ _ (by omega)
    simp [out]

/-- The mask wakes every worker, as far as it reaches. -/
theorem getLsbD_wakeMask {n j : Nat} (few : n + 1 ≤ 31) (worker : 1 ≤ j ∧ j ≤ n) :
    (wakeMask (BitVec.ofNat 32 (n + 1))).getLsbD j = true := by
  have cores : (BitVec.ofNat 32 (n + 1)).toNat % 32 = n + 1 := by
    rw [BitVec.toNat_ofNat]
    omega
  have ones : ((1#32 <<< (n + 1)) - 1#32).toNat = 2 ^ (n + 1) - 1 := by
    have bound : 2 ^ (n + 1) ≤ 2 ^ 31 := Nat.pow_le_pow_right (by decide) few
    have positive := Nat.two_pow_pos (n + 1)
    have one : (1#32).toNat = 1 := rfl
    rw [BitVec.toNat_sub, BitVec.toNat_shiftLeft, one, Nat.one_shiftLeft]
    omega
  rw [wakeMask, cores, BitVec.getLsbD_and, BitVec.getLsbD_not]
  have high : ((1#32 <<< (n + 1)) - 1#32).getLsbD j = true := by
    rw [BitVec.getLsbD, ones, Nat.testBit_two_pow_sub_one]
    simp
    omega
  rw [high]
  simp [BitVec.getLsbD_one]
  omega

/-! ## A step of a worker -/

section WorkerStep

variable {idx : Nat} {all : Bool} {s s' : Shared} {w w' : Worker}

/-- Workers write counters and their own interrupt bit. -/
structure Frame (idx : Nat) (s s' : Shared) : Prop where
  euPGlobal : s'.euPGlobal = s.euPGlobal
  exitFlag : s'.exitFlag = s.exitFlag
  call : s'.e.toCall = s.e.toCall
  nthreads : s'.e.nthreads = s.e.nthreads
  bits : ∀ j, j ≠ idx → s'.clClint.getLsbD j = s.clClint.getLsbD j

theorem euEventLoop_frame (few : idx < 32) (taken : euEventLoop idx all s w = some (w', s')) :
    Frame idx s s' := by
  cases pc : w.pc <;> simp only [euEventLoop, pc, Option.ite_none_right_eq_some,
    Option.some.injEq, Prod.mk.injEq, reduceCtorEq] at taken
  case clr =>
    obtain ⟨-, rfl⟩ := taken
    refine ⟨rfl, rfl, rfl, rfl, fun j apart => ?_⟩
    rw [getLsbD_clr few, decide_eq_true apart, Bool.and_true]
  case euInit | hwBarrier | wfi =>
    obtain ⟨-, -, rfl⟩ := taken
    exact ⟨rfl, rfl, rfl, rfl, fun _ _ => rfl⟩
  all_goals
    obtain ⟨-, rfl⟩ := taken
    exact ⟨rfl, rfl, rfl, rfl, fun _ _ => rfl⟩

/-- What the counters count moves with the worker. -/
theorem euEventLoop_counters (taken : euEventLoop idx all s w = some (w', s')) :
    s'.workersInLoop + (if InLoop (s.clClint.getLsbD idx, w) then 1 else 0) =
        s.workersInLoop + (if InLoop (s'.clClint.getLsbD idx, w') then 1 else 0) ∧
      s'.workersWfi + (if InWfi (s.clClint.getLsbD idx, w) then 1 else 0) =
        s.workersWfi + (if InWfi (s'.clClint.getLsbD idx, w') then 1 else 0) := by
  cases pc : w.pc <;> simp only [euEventLoop, pc, Option.ite_none_right_eq_some,
    Option.some.injEq, Prod.mk.injEq, reduceCtorEq] at taken
  case euInit | hwBarrier | wfi =>
    obtain ⟨-, rfl, rfl⟩ := taken
    simp [InLoop, InWfi, pc]
  case testExit =>
    obtain ⟨rfl, rfl⟩ := taken
    by_cases exits : s.exitFlag = 0#32 <;> simp [InLoop, InWfi, pc, exits]
  case testThreads =>
    obtain ⟨rfl, rfl⟩ := taken
    by_cases joins : idx < s.e.nthreads.toNat <;> simp [InLoop, InWfi, pc, joins]
  all_goals
    obtain ⟨rfl, rfl⟩ := taken
    simp [InLoop, InWfi, pc, snrtIntClusterClr]

theorem callsOf_append_self {finished : List Region} {cur : Region}
    (joins : idx < cur.numThreads.toNat) :
    callsOf idx (finished ++ [cur]) = callsOf idx finished ++ [cur.toCall] := by
  simp [callsOf, joins]

theorem callsOf_append_other {finished : List Region} {cur : Region}
    (out : ¬idx < cur.numThreads.toNat) : callsOf idx (finished ++ [cur]) = callsOf idx finished := by
  simp only [callsOf, List.filter_append, List.map_append]
  simp [out]

theorem euEventLoop_boot (ok : WorkerOk .boot idx (s.clClint.getLsbD idx, w))
    (shared : SharedOk .boot s) (taken : euEventLoop idx all s w = some (w', s')) :
    WorkerOk .boot idx (s'.clClint.getLsbD idx, w') := by
  obtain ⟨quiet, none, place⟩ := ok
  obtain ⟨-, stay, empty⟩ := shared
  cases pc : w.pc <;> simp only [euEventLoop, pc, Option.ite_none_right_eq_some,
    Option.some.injEq, Prod.mk.injEq, reduceCtorEq] at taken place
  case wfi =>
    exact absurd (quiet.symm.trans taken.1) (by decide)
  case euInit | hwBarrier =>
    obtain ⟨-, rfl, rfl⟩ := taken
    exact ⟨quiet, none, trivial⟩
  case testExit =>
    obtain ⟨rfl, rfl⟩ := taken
    refine ⟨quiet, none, ?_⟩
    simp [stay]
  case testThreads =>
    obtain ⟨rfl, rfl⟩ := taken
    refine ⟨quiet, none, ?_⟩
    simp [empty]
  all_goals
    obtain ⟨rfl, rfl⟩ := taken
    exact ⟨quiet, none, trivial⟩

theorem euEventLoop_awake (few : idx < 32) {finished : List Region} {cur : Region}
    (ok : AwakeOk finished cur idx (s.clClint.getLsbD idx, w))
    (shared : SharedOk (.awake finished cur) s)
    (taken : euEventLoop idx all s w = some (w', s')) :
    AwakeOk finished cur idx (s'.clClint.getLsbD idx, w') := by
  obtain ⟨stay, event, threads⟩ := shared
  cases pc : w.pc <;> simp only [euEventLoop, pc, AwakeOk, Option.ite_none_right_eq_some,
    Option.some.injEq, Prod.mk.injEq, reduceCtorEq] at taken ok
  case wfi =>
    obtain ⟨pending, rfl, rfl⟩ := taken
    rw [if_pos pending] at ok
    exact ok
  case clr =>
    obtain ⟨rfl, rfl⟩ := taken
    refine ⟨?_, ok⟩
    rw [getLsbD_clr few]
    simp
  case subWfi =>
    obtain ⟨rfl, rfl⟩ := taken
    exact ok
  case testExit =>
    obtain ⟨rfl, rfl⟩ := taken
    simp only [AwakeOk, stay, ne_eq, not_true_eq_false, if_false]
    exact ok
  case testThreads =>
    obtain ⟨rfl, rfl⟩ := taken
    rw [threads]
    by_cases joins : idx < cur.numThreads.toNat
    · simp only [AwakeOk, if_pos joins]
      exact ⟨ok.1, ok.2, joins⟩
    · simp only [AwakeOk, if_neg joins]
      exact ⟨ok.1, ok.2.trans (callsOf_append_other joins).symm⟩
  case loadFn =>
    obtain ⟨rfl, rfl⟩ := taken
    exact ⟨ok.1, ok.2.1, ok.2.2, congrArg Call.fn event⟩
  case loadData fn =>
    obtain ⟨rfl, rfl⟩ := taken
    exact ⟨ok.1, ok.2.1, ok.2.2.1, ok.2.2.2, congrArg Call.data event⟩
  case loadArgc fn data =>
    obtain ⟨quiet, before, joins, rfl, rfl⟩ := ok
    obtain ⟨rfl, rfl⟩ := taken
    have same : ({ fn := cur.fn, data := cur.data, argc := s.e.argc } : Call) = cur.toCall := by
      rw [← event]
    refine ⟨quiet, ?_, joins, same⟩
    unfold Past
    rw [callsOf_append_self joins, ← before, ← same]
  case call c =>
    obtain ⟨rfl, rfl⟩ := taken
    exact ⟨ok.1, ok.2.1⟩
  case addFini =>
    obtain ⟨rfl, rfl⟩ := taken
    exact ok
  case addWfi =>
    obtain ⟨rfl, rfl⟩ := taken
    simp only [AwakeOk]
    rw [ok.1]
    exact ok.2

theorem euEventLoop_leaving {finished : List Region}
    (ok : WorkerOk (.leaving finished) idx (s.clClint.getLsbD idx, w)) (exits : s.exitFlag = 1)
    (taken : euEventLoop idx all s w = some (w', s')) :
    WorkerOk (.leaving finished) idx (s'.clClint.getLsbD idx, w') := by
  obtain ⟨calls, place⟩ := ok
  cases pc : w.pc <;> simp only [euEventLoop, pc, Option.ite_none_right_eq_some,
    Option.some.injEq, Prod.mk.injEq, reduceCtorEq] at taken place
  case wfi =>
    obtain ⟨-, rfl, rfl⟩ := taken
    exact ⟨calls, trivial⟩
  case testExit =>
    obtain ⟨rfl, rfl⟩ := taken
    refine ⟨calls, ?_⟩
    simp [exits]
  case clr | subWfi =>
    obtain ⟨rfl, rfl⟩ := taken
    exact ⟨calls, trivial⟩

/-- A worker keeps to what its phase allows. -/
theorem euEventLoop_ok (few : idx < 32) {phase : Phase}
    (ok : WorkerOk phase idx (s.clClint.getLsbD idx, w)) (shared : SharedOk phase s)
    (taken : euEventLoop idx all s w = some (w', s')) :
    WorkerOk phase idx (s'.clClint.getLsbD idx, w') := by
  cases phase with
  | start =>
    obtain ⟨-, rfl⟩ := ok
    have unpublished : s.euPGlobal = false := shared
    simp [euEventLoop, unpublished] at taken
  | boot => exact euEventLoop_boot ok shared taken
  | settling settled =>
    obtain ⟨quiet, calls, pc | pc⟩ := ok
    · simp only at pc
      simp only [euEventLoop, pc, Option.some.injEq, Prod.mk.injEq] at taken
      obtain ⟨rfl, rfl⟩ := taken
      exact ⟨quiet, calls, Or.inr rfl⟩
    · simp only at quiet pc
      simp [euEventLoop, pc, quiet] at taken
  | asleep settled =>
    obtain ⟨quiet, calls, pc⟩ := ok
    simp only at quiet pc
    simp [euEventLoop, pc, quiet] at taken
  | awake finished cur => exact euEventLoop_awake few ok shared taken
  | leaving finished => exact euEventLoop_leaving ok shared taken

/-- In `fini_count` too, while a team runs. -/
theorem euEventLoop_fini {finished : List Region} {cur : Region}
    (ok : AwakeOk finished cur idx (s.clClint.getLsbD idx, w))
    (taken : euEventLoop idx all s w = some (w', s')) :
    s'.e.finiCount + (if Fini (s.clClint.getLsbD idx, w) then 1 else 0) =
      s.e.finiCount + (if Fini (s'.clClint.getLsbD idx, w') then 1 else 0) := by
  cases pc : w.pc <;> simp only [euEventLoop, pc, AwakeOk, Option.ite_none_right_eq_some,
    Option.some.injEq, Prod.mk.injEq, reduceCtorEq] at taken ok
  case wfi =>
    obtain ⟨pending, rfl, rfl⟩ := taken
    simp [Fini, pc, pending]
  case testExit =>
    obtain ⟨rfl, rfl⟩ := taken
    by_cases exits : s.exitFlag = 0#32 <;> simp [Fini, pc, exits]
  case testThreads =>
    obtain ⟨rfl, rfl⟩ := taken
    by_cases joins : idx < s.e.nthreads.toNat <;> simp [Fini, pc, joins]
  case addWfi =>
    obtain ⟨rfl, rfl⟩ := taken
    simp [Fini, pc, ok.1]
  all_goals
    obtain ⟨rfl, rfl⟩ := taken
    simp [Fini, pc, snrtIntClusterClr]

end WorkerStep

/-! ## What core 0 knows -/

/-- Between two regions. -/
structure Idle (s : Shared) (m : Master) : Prop where
  exitFlag : s.exitFlag = 0
  nthreads : s.e.nthreads = 0
  calls : m.calls = callsOf 0 m.finished

/-- Region `r` is in the event. -/
structure Pushed (s : Shared) (m : Master) (r : Region) : Prop where
  todo : m.todo.head? = some r
  exitFlag : s.exitFlag = 0
  call : s.e.toCall = r.toCall
  nthreads : s.e.nthreads = r.numThreads

/-- In `eu_run_empty` for a region. -/
def InRegion (s : Shared) (m : Master) (caller : Caller) (P : Region → Prop) : Prop :=
  caller = .parallelRegion ∧ ∃ r, Pushed s m r ∧ P r

def WakerOk (s : Shared) (m : Master) : Waker → Prop
  | .euRunEmpty caller scratch => InRegion s m caller fun r => scratch = r.numThreads ∧
      1#32 < scratch ∧ s.e.finiCount = 0 ∧ m.calls = callsOf 0 m.finished
  | .euExit => s.exitFlag = 1 ∧ m.todo = [] ∧ m.calls = callsOf 0 m.finished

/-- What holds of core 0 and the event at each position; `n` is the number of workers. -/
def MasterOk (n : Nat) (s : Shared) (m : Master) : Prop :=
  match m.pc with
  | .euInit | .hwBarrier | .bootWait => m.finished = [] ∧ m.calls = []
  | .idle => Idle s m
  | .pushLoad | .pushFn => Idle s m ∧ m.todo ≠ []
  | .pushWait scratch => Idle s m ∧ m.todo ≠ [] ∧ scratch = BitVec.ofNat 32 n
  | .pushData => Idle s m ∧ ∃ r, m.todo.head? = some r ∧ s.e.fn = r.fn
  | .pushArgc => Idle s m ∧ ∃ r, m.todo.head? = some r ∧ s.e.fn = r.fn ∧ s.e.data = r.data
  | .pushThreads => Idle s m ∧ ∃ r, m.todo.head? = some r ∧ s.e.toCall = r.toCall
  | .emptyLoad .parallelRegion => ∃ r, Pushed s m r ∧ m.calls = callsOf 0 m.finished
  | .emptyLoad .euExit | .exitTest | .exitLoad | .exitFlag => Idle s m ∧ m.todo = []
  | .exitWait scratch => Idle s m ∧ m.todo = [] ∧ scratch = BitVec.ofNat 32 n
  | .wakeLoad waker | .wakeSet waker => WakerOk s m waker
  | .wakeWait waker scratch => WakerOk s m waker ∧ scratch = BitVec.ofNat 32 n
  | .emptyReset caller scratch | .testThreads caller scratch | .loadFn caller scratch =>
    InRegion s m caller fun r => scratch = r.numThreads ∧ m.calls = callsOf 0 m.finished
  | .loadData caller scratch fn => InRegion s m caller fun r =>
    scratch = r.numThreads ∧ m.calls = callsOf 0 m.finished ∧ fn = r.fn
  | .loadArgc caller scratch fn data => InRegion s m caller fun r =>
    scratch = r.numThreads ∧ m.calls = callsOf 0 m.finished ∧ fn = r.fn ∧ data = r.data
  | .call caller scratch c => InRegion s m caller fun r =>
    scratch = r.numThreads ∧ m.calls = callsOf 0 (m.finished ++ [r]) ∧ c = r.toCall
  | .emptyTest caller scratch => InRegion s m caller fun r =>
    scratch = r.numThreads ∧ m.calls = callsOf 0 (m.finished ++ [r])
  | .emptyWait caller scratch => InRegion s m caller fun r =>
    scratch = BitVec.ofNat 32 n ∧ m.calls = callsOf 0 (m.finished ++ [r])
  | .emptyClear caller => InRegion s m caller fun r => m.calls = callsOf 0 (m.finished ++ [r])
  | .done => s.exitFlag = 1 ∧ m.todo = [] ∧ m.calls = callsOf 0 m.finished

/-- **The invariant.** -/
structure Inv {n : Nat} (regions : List Region) (s : State n) : Prop where
  program : s.master.finished ++ s.master.todo = regions
  core0 : MasterOk n s.shared s.master
  workers : ∀ i, WorkerOk s.master.phase (coreIdx i) (s.view i)
  shared : SharedOk s.master.phase s.shared
  inLoop : s.master.pc ≠ .euInit →
    s.shared.workersInLoop = BitVec.ofNat 32 (population (fun _ => InLoop) s.view)
  inWfi : s.master.pc ≠ .euInit →
    s.shared.workersWfi = BitVec.ofNat 32 (population (fun _ => InWfi) s.view)
  fini : ∀ finished cur, s.master.phase = .awake finished cur →
    s.shared.e.finiCount = BitVec.ofNat 32 (population (fun _ => Fini) s.view)

/-! ### Steps of the workers -/

section Frame

variable {idx : Nat} {s s' : Shared} {m : Master}

theorem Idle.frame (idle : Idle s m) (frame : Frame idx s s') : Idle s' m :=
  ⟨frame.exitFlag.trans idle.exitFlag, frame.nthreads.trans idle.nthreads, idle.calls⟩

/-- Only what core 0 has to do, and what it has called, matters. -/
theorem Idle.moved {m' : Master} (idle : Idle s m) (finished : m'.finished = m.finished)
    (calls : m'.calls = m.calls) : Idle s m' := by
  refine ⟨idle.exitFlag, idle.nthreads, ?_⟩
  rw [calls, finished]
  exact idle.calls

theorem Pushed.moved {m' : Master} {r : Region} (pushed : Pushed s m r) (todo : m'.todo = m.todo) :
    Pushed s m' r :=
  ⟨todo ▸ pushed.todo, pushed.exitFlag, pushed.call, pushed.nthreads⟩

theorem Pushed.frame {r : Region} (pushed : Pushed s m r) (frame : Frame idx s s') :
    Pushed s' m r :=
  ⟨pushed.todo, frame.exitFlag.trans pushed.exitFlag, frame.call.trans pushed.call,
    frame.nthreads.trans pushed.nthreads⟩

theorem InRegion.frame {caller : Caller} {P : Region → Prop} (inside : InRegion s m caller P)
    (frame : Frame idx s s') : InRegion s' m caller P := by
  obtain ⟨from_, r, pushed, more⟩ := inside
  exact ⟨from_, r, pushed.frame frame, more⟩

theorem SharedOk.frame {phase : Phase} (ok : SharedOk phase s) (frame : Frame idx s s') :
    SharedOk phase s' := by
  cases phase with
  | start => exact frame.euPGlobal.trans ok
  | boot => exact ⟨frame.euPGlobal.trans ok.1, frame.exitFlag.trans ok.2.1, frame.nthreads.trans ok.2.2⟩
  | settling settled => trivial
  | asleep settled => trivial
  | awake finished cur =>
    exact ⟨frame.exitFlag.trans ok.1, frame.call.trans ok.2.1, frame.nthreads.trans ok.2.2⟩
  | leaving finished => exact frame.exitFlag.trans ok

/-- While workers move, core 0 is at a position where only what they do not write matters. -/
theorem MasterOk.frame {n : Nat} (ok : MasterOk n s m) (frame : Frame idx s s')
    (moving : ∀ settled, m.phase ≠ .asleep settled) : MasterOk n s' m := by
  cases pc : m.pc <;> simp only [MasterOk, Master.phase, pc] at ok moving ⊢
  case euInit | hwBarrier | bootWait => exact ok
  case idle => exact ok.frame frame
  case pushLoad | pushWait | exitTest | exitLoad | exitWait => exact ⟨ok.1.frame frame, ok.2⟩
  case emptyLoad caller =>
    cases caller with
    | parallelRegion => exact absurd rfl (moving _)
    | euExit => exact ⟨ok.1.frame frame, ok.2⟩
  case pushFn | pushData | pushArgc | pushThreads | emptyReset | wakeLoad | wakeWait | wakeSet |
      exitFlag =>
    exact absurd rfl (moving _)
  case done => exact ⟨frame.exitFlag.trans ok.1, ok.2⟩
  all_goals exact InRegion.frame ok frame

end Frame

theorem view_update {n : Nat} (s : State n) (i : Fin n) (worker : Worker)
    (shared : Shared) (bits : ∀ j, j ≠ coreIdx i → shared.clClint.getLsbD j = s.shared.clClint.getLsbD j) :
    ({ s with shared, workers := Function.update s.workers i worker } : State n).view =
      Function.update s.view i (shared.clClint.getLsbD (coreIdx i), worker) := by
  funext j
  by_cases here : j = i
  · subst here
    simp [State.view]
  · have apart : coreIdx j ≠ coreIdx i := by
      intro same
      exact here (Fin.ext (Nat.succ_injective same))
    simp [State.view, here, bits _ apart]

theorem Inv.worker {n : Nat} (few : n + 1 ≤ 31) {regions : List Region} {s t : State n}
    (inv : Inv regions s) (i : Fin n) (taken : (eventUnit n).step (.worker i) s = some t) :
    Inv regions t := by
  obtain ⟨⟨worker, shared⟩, stepped, rfl⟩ := Option.map_eq_some_iff.mp taken
  have small : coreIdx i < 32 := by
    have := i.isLt
    unfold coreIdx
    omega
  have ok := inv.workers i
  have frame := euEventLoop_frame small stepped
  obtain ⟨inLoop, inWfi⟩ := euEventLoop_counters stepped
  have view := view_update s i worker shared frame.bits
  have moving : ∀ settled, s.master.phase ≠ .asleep settled := by
    intro settled asleep
    rw [asleep] at ok
    obtain ⟨quiet, -, pc⟩ := ok
    simp only [State.view] at quiet pc
    simp [euEventLoop, pc, quiet] at stepped
  refine ⟨inv.program, inv.core0.frame frame moving, ?_, inv.shared.frame frame, ?_, ?_, ?_⟩
  · rw [view]
    exact forall_update (fun j v => WorkerOk s.master.phase (coreIdx j) v)
      (euEventLoop_ok small ok inv.shared stepped) fun j _ => inv.workers j
  · intro begun
    rw [view]
    exact counter_update (inv.inLoop begun) inLoop
  · intro begun
    rw [view]
    exact counter_update (inv.inWfi begun) inWfi
  · intro finished cur awake
    rw [view]
    have awake : s.master.phase = .awake finished cur := awake
    rw [awake] at ok
    exact counter_update (inv.fini finished cur awake) (euEventLoop_fini ok stepped)

/-! ### Steps of core 0 -/

/-- The phases in which all workers are in the loop. -/
def Phase.Late : Phase → Prop
  | .start | .boot => False
  | _ => True

theorem WorkerOk.inLoop {phase : Phase} {idx : Nat} {v : View} (ok : WorkerOk phase idx v)
    (late : phase.Late) : InLoop v := by
  cases phase with
  | start => exact late.elim
  | boot => exact late.elim
  | settling settled =>
    obtain ⟨-, -, pc | pc⟩ := ok <;> simp [InLoop, pc]
  | asleep settled =>
    obtain ⟨-, -, pc⟩ := ok
    simp [InLoop, pc]
  | awake finished cur =>
    cases pc : v.2.pc <;> simp only [WorkerOk, AwakeOk, pc] at ok <;> simp [InLoop, pc]
  | leaving finished =>
    cases pc : v.2.pc <;> simp only [WorkerOk, pc, and_false] at ok <;> simp [InLoop, pc]

section MasterStep

variable {n : Nat} {regions : List Region} {s : State n}

theorem Inv.workersInLoop (inv : Inv regions s) (begun : s.master.pc ≠ .euInit)
    (late : s.master.phase.Late) : s.shared.workersInLoop = BitVec.ofNat 32 n := by
  rw [inv.inLoop begun]
  congr 1
  refine (population_eq_card.mpr fun i => ?_).trans (Fintype.card_fin n)
  exact (inv.workers i).inLoop late

/-- Core 0 sees all workers in `workers_wfi`. -/
theorem Inv.all_inWfi (inv : Inv regions s) (few : n + 1 ≤ 31) (begun : s.master.pc ≠ .euInit)
    (full : s.shared.workersWfi = BitVec.ofNat 32 n) (i : Fin n) : InWfi (s.view i) :=
  counter_full (inv.inWfi begun) full (Fintype.card_fin n) (by omega) i

/-- Core 0 moves on, and writes nothing that the workers write. -/
theorem Inv.move (inv : Inv regions s) (begun : s.master.pc ≠ .euInit) {m : Master} {e : Event}
    {exitFlag : BitVec 32} (program : m.finished ++ m.todo = regions)
    (ok : MasterOk n { s.shared with e, exitFlag } m)
    (workers : ∀ i, WorkerOk m.phase (coreIdx i) (s.view i))
    (shared : SharedOk m.phase { s.shared with e, exitFlag })
    (fini : ∀ finished cur, m.phase = .awake finished cur →
      e.finiCount = BitVec.ofNat 32 (population (fun _ => Fini) s.view)) :
    Inv regions { s with master := m, shared := { s.shared with e, exitFlag } } where
  program := program
  core0 := ok
  workers := workers
  shared := shared
  inLoop _ := inv.inLoop begun
  inWfi _ := inv.inWfi begun
  fini := fini

/-- A step within a phase that writes nothing. -/
theorem Inv.stay (inv : Inv regions s) (begun : s.master.pc ≠ .euInit) {m : Master}
    (phase : m.phase = s.master.phase)
    (program : m.finished ++ m.todo = regions) (ok : MasterOk n s.shared m) :
    Inv regions { s with master := m } := by
  refine inv.move begun program ok ?_ ?_ ?_
  · rw [phase]
    exact inv.workers
  · rw [phase]
    exact inv.shared
  · rw [phase]
    exact inv.fini

theorem not_awake_of_settling {m : Master} {settled : List Region}
    (phase : m.phase = .settling settled) {P : Prop} :
    ∀ finished cur, m.phase = .awake finished cur → P := by
  intro finished cur awake
  rw [phase] at awake
  cases awake

theorem not_awake_of_asleep {m : Master} {settled : List Region}
    (phase : m.phase = .asleep settled) {P : Prop} :
    ∀ finished cur, m.phase = .awake finished cur → P := by
  intro finished cur awake
  rw [phase] at awake
  cases awake

/-- Workers that settle and are all counted in `workers_wfi` are asleep. -/
theorem Inv.fall_asleep (inv : Inv regions s) (few : n + 1 ≤ 31) (begun : s.master.pc ≠ .euInit)
    {settled : List Region} (phase : s.master.phase = .settling settled)
    (full : s.shared.workersWfi = BitVec.ofNat 32 n) (i : Fin n) :
    WorkerOk (.asleep settled) (coreIdx i) (s.view i) := by
  have ok := inv.workers i
  rw [phase] at ok
  obtain ⟨quiet, calls, pc | pc⟩ := ok
  · have counted := inv.all_inWfi few begun full i
    simp [InWfi, pc] at counted
  · exact ⟨quiet, calls, pc⟩

theorem numcores_sub_one : BitVec.ofNat 32 (n + 1) - 1 = BitVec.ofNat 32 n := by
  rw [BitVec.ofNat_add]
  exact BitVec.add_sub_cancel _ _

/-- Core 0 clears the event unit and publishes it. -/
theorem Inv.euInit (inv : Inv regions s) (pc : s.master.pc = .euInit) :
    Inv regions { s with master := { s.master with pc := .hwBarrier }, shared := s.shared.init } := by
  have ok := inv.core0
  have fresh := inv.workers
  simp only [MasterOk, pc] at ok
  simp only [Master.phase, pc] at fresh
  have waits : ∀ i, s.workers i = { pc := .euInit, calls := [] } := fun i => (fresh i).2
  refine ⟨inv.program, ok, fun i => ⟨(fresh i).1, ?_, ?_⟩, ⟨rfl, rfl, rfl⟩, fun _ => ?_,
    fun _ => ?_, ?_⟩
  · simp [State.view, waits]
  · simp [State.view, waits]
  · rw [population_eq_zero.mpr fun i => by simp [InLoop, State.view, waits]]
    rfl
  · rw [population_eq_zero.mpr fun i => by simp [InWfi, State.view, waits]]
    rfl
  · intro finished cur awake
    cases awake

/-- The bootstrap ends when all workers sleep. -/
theorem Inv.bootWait (inv : Inv regions s) (few : n + 1 ≤ 31) (pc : s.master.pc = .bootWait)
    (full : s.shared.workersWfi = BitVec.ofNat 32 (n + 1) - 1) :
    Inv regions { s with master := { s.master with pc := .idle } } := by
  have begun : s.master.pc ≠ .euInit := by simp [pc]
  have ok := inv.core0
  have workers := inv.workers
  have shared := inv.shared
  simp only [MasterOk, pc] at ok
  simp only [Master.phase, pc] at workers shared
  obtain ⟨finished, calls⟩ := ok
  refine inv.move begun inv.program ⟨shared.2.1, shared.2.2, ?_⟩ (fun i => ?_) trivial
    (not_awake_of_settling rfl)
  · simp [calls, finished, callsOf]
  · obtain ⟨quiet, none, place⟩ := workers i
    have counted := inv.all_inWfi few begun (full.trans numcores_sub_one) i
    refine ⟨quiet, ?_, Or.inr ?_⟩
    · simp [none, finished, callsOf]
    · unfold InWfi at counted
      cases at_ : (s.view i).2.pc <;> simp_all

theorem running_ne_settling {m : Master} {scratch : BitVec 32} {settled : List Region} :
    m.running scratch ≠ .settling settled := by
  unfold Master.running
  split
  · simp
  · split <;> simp

/-- Between two regions, and on the way to `eu_exit`. -/
theorem Inv.settling_step (inv : Inv regions s) (few : n + 1 ≤ 31) {settled : List Region}
    (phase : s.master.phase = .settling settled) (run : ∀ caller, s.master.pc ≠ .emptyClear caller)
    {m : Master} {shared : Shared}
    (taken : masterStep (BitVec.ofNat 32 (n + 1)) (arrived s) s.shared s.master = some (m, shared)) :
    Inv regions { s with master := m, shared } := by
  have begun : s.master.pc ≠ .euInit := by
    intro pc
    simp [Master.phase, pc] at phase
  have loop : s.shared.workersInLoop = BitVec.ofNat 32 n :=
    inv.workersInLoop begun (by rw [phase]; trivial)
  have ok := inv.core0
  have asleep := inv.fall_asleep few begun phase
  cases pc : s.master.pc <;>
    simp only [Master.phase, pc, reduceCtorEq, running_ne_settling] at phase <;>
    simp only [masterStep, pc, Option.ite_none_right_eq_some, Option.some.injEq, Prod.mk.injEq]
      at taken <;> simp only [MasterOk, pc] at ok
  case idle =>
    obtain ⟨rfl, rfl⟩ := taken
    by_cases empty : s.master.todo = []
    · refine inv.stay begun ?_ inv.program ?_
      · simp [Master.phase, pc, empty]
      · simp only [MasterOk, List.isEmpty_iff, if_pos empty]
        exact ⟨ok.moved rfl rfl, empty⟩
    · refine inv.stay begun ?_ inv.program ?_
      · simp [Master.phase, pc, empty]
      · simp only [MasterOk, List.isEmpty_iff, if_neg empty]
        exact ⟨ok.moved rfl rfl, empty⟩
  case pushLoad =>
    obtain ⟨rfl, rfl⟩ := taken
    refine inv.stay begun (by simp [Master.phase, pc]) inv.program ?_
    exact ⟨ok.1.moved rfl rfl, ok.2, loop⟩
  case exitLoad =>
    obtain ⟨rfl, rfl⟩ := taken
    refine inv.stay begun (by simp [Master.phase, pc]) inv.program ?_
    exact ⟨ok.1.moved rfl rfl, ok.2, loop⟩
  case exitTest =>
    obtain ⟨rfl, rfl⟩ := taken
    rw [if_pos ok.1.nthreads]
    refine inv.stay begun (by simp [Master.phase, pc]) inv.program ?_
    exact ⟨ok.1.moved rfl rfl, ok.2⟩
  case emptyLoad caller =>
    cases caller with
    | parallelRegion => cases phase
    | euExit =>
      simp only [ok.1.nthreads, if_true, Option.some.injEq, Prod.mk.injEq] at taken
      obtain ⟨rfl, rfl⟩ := taken
      refine inv.stay begun (by simp [Master.phase, pc, Master.euRunEmptyReturns]) inv.program ?_
      exact ⟨ok.1.moved rfl rfl, ok.2⟩
  case pushWait scratch | exitWait scratch =>
    obtain ⟨full, rfl, rfl⟩ := taken
    cases phase
    refine inv.move begun inv.program ⟨ok.1.moved rfl rfl, ok.2.1⟩
      (asleep (full.trans ok.2.2)) trivial (not_awake_of_asleep rfl)
  case emptyClear caller => exact absurd pc (run caller)

/-- Core 0 writes the event. -/
theorem Inv.push_step (inv : Inv regions s)
    (pc : s.master.pc = .pushFn ∨ s.master.pc = .pushData ∨ s.master.pc = .pushArgc ∨
      s.master.pc = .pushThreads) {m : Master} {shared : Shared}
    (taken : masterStep (BitVec.ofNat 32 (n + 1)) (arrived s) s.shared s.master = some (m, shared)) :
    Inv regions { s with master := m, shared } := by
  have begun : s.master.pc ≠ .euInit := by rcases pc with pc | pc | pc | pc <;> simp [pc]
  have ok := inv.core0
  have workers := inv.workers
  rcases pc with pc | pc | pc | pc <;> simp only [masterStep, pc, Option.map_eq_some_iff,
    Prod.mk.injEq] at taken <;> simp only [MasterOk, pc] at ok <;>
    simp only [Master.phase, pc] at workers <;> obtain ⟨r, first, rfl, rfl⟩ := taken
  · refine inv.move begun inv.program ⟨⟨ok.1.exitFlag, ok.1.nthreads, ok.1.calls⟩, r, first, rfl⟩
      workers trivial (not_awake_of_asleep rfl)
  · obtain ⟨idle, r', first', fn⟩ := ok
    cases first.symm.trans first'
    refine inv.move begun inv.program ⟨⟨idle.exitFlag, idle.nthreads, idle.calls⟩, r, first, fn, rfl⟩
      workers trivial (not_awake_of_asleep rfl)
  · obtain ⟨idle, r', first', fn, data⟩ := ok
    cases first.symm.trans first'
    refine inv.move begun inv.program ⟨⟨idle.exitFlag, idle.nthreads, idle.calls⟩, r, first, ?_⟩
      workers trivial (not_awake_of_asleep rfl)
    simp only [fn, data]
  · obtain ⟨idle, r', first', call⟩ := ok
    cases first.symm.trans first'
    refine inv.move begun inv.program ⟨r, ⟨first, idle.exitFlag, call, rfl⟩, idle.calls⟩
      workers trivial (not_awake_of_asleep rfl)

theorem Pushed.mem {sh : Shared} {m : Master} {r : Region} (pushed : Pushed sh m r)
    (program : m.finished ++ m.todo = regions) : r ∈ regions := by
  rw [← program]
  exact List.mem_append_right _ (List.mem_of_mem_head? pushed.todo)

/-- A region of a single thread is run by core 0 alone. -/
theorem running_single {m : Master} {scratch : BitVec 32}
    (single : ¬1#32 < scratch) : m.running scratch = .asleep m.finished := by
  unfold Master.running
  cases todo : m.todo with
  | nil => rfl
  | cons cur rest => exact if_neg single

theorem running_team {m : Master} {r : Region} {scratch : BitVec 32} (first : m.todo.head? = some r)
    (team : 1#32 < scratch) : m.running scratch = .awake m.finished r := by
  unfold Master.running
  cases todo : m.todo with
  | nil => simp [todo] at first
  | cons cur rest =>
    rw [todo] at first
    cases first
    exact if_pos team

/-- Before the workers are woken. -/
theorem Inv.asleep_step (inv : Inv regions s) (valid : ∀ r ∈ regions, r.numThreads ≠ 0)
    (pc : s.master.pc = .emptyLoad .parallelRegion ∨
      (∃ caller scratch, s.master.pc = .emptyReset caller scratch) ∨
      (∃ waker, s.master.pc = .wakeLoad waker) ∨
      (∃ waker scratch, s.master.pc = .wakeWait waker scratch) ∨ s.master.pc = .exitFlag)
    {m : Master} {shared : Shared}
    (taken : masterStep (BitVec.ofNat 32 (n + 1)) (arrived s) s.shared s.master = some (m, shared)) :
    Inv regions { s with master := m, shared } := by
  have phase : s.master.phase = .asleep s.master.finished := by
    rcases pc with pc | ⟨_, _, pc⟩ | ⟨_, pc⟩ | ⟨_, _, pc⟩ | pc <;> simp [Master.phase, pc]
  have begun : s.master.pc ≠ .euInit := by
    intro pc
    simp [Master.phase, pc] at phase
  have loop : s.shared.workersInLoop = BitVec.ofNat 32 n :=
    inv.workersInLoop begun (by rw [phase]; trivial)
  have ok := inv.core0
  have workers := inv.workers
  rw [phase] at workers
  rcases pc with pc | ⟨caller, scratch, pc⟩ | ⟨waker, pc⟩ | ⟨waker, scratch, pc⟩ | pc <;>
    simp only [masterStep, pc, Option.ite_none_right_eq_some, Option.some.injEq, Prod.mk.injEq]
      at taken <;> simp only [MasterOk, pc] at ok
  · obtain ⟨r, pushed, calls⟩ := ok
    have busy : s.shared.e.nthreads ≠ 0 := pushed.nthreads ▸ valid r (pushed.mem inv.program)
    rw [if_neg busy] at taken
    cases taken
    refine inv.stay begun (by simp [Master.phase, pc]) inv.program ⟨rfl, r, pushed.moved rfl, pushed.nthreads, calls⟩
  · obtain ⟨rfl, r, pushed, threads, calls⟩ := ok
    obtain ⟨rfl, rfl⟩ := taken
    have pushed' : ∀ pc e, e.toCall = s.shared.e.toCall → e.nthreads = s.shared.e.nthreads →
        Pushed { s.shared with e } { s.master with pc } r := fun pc e call nthreads =>
      ⟨pushed.todo, pushed.exitFlag, call.trans pushed.call, nthreads.trans pushed.nthreads⟩
    by_cases team : 1#32 < scratch
    · rw [if_pos team]
      exact inv.move begun inv.program ⟨rfl, r, pushed' _ _ rfl rfl, threads, team, rfl, calls⟩ workers
        trivial (not_awake_of_asleep rfl)
    · rw [if_neg team]
      have alone : Master.phase { s.master with pc := .testThreads .parallelRegion scratch } =
          .asleep s.master.finished := running_single team
      refine inv.move begun inv.program ⟨rfl, r, pushed' _ _ rfl rfl, threads, calls⟩ ?_ ?_
        (not_awake_of_asleep alone)
      · rw [alone]
        exact workers
      · rw [alone]
        trivial
  · obtain ⟨rfl, rfl⟩ := taken
    refine inv.stay begun (by simp [Master.phase, pc]) inv.program ⟨?_, loop⟩
    cases waker with
    | euRunEmpty caller scratch =>
      obtain ⟨rfl, r, pushed, more⟩ := ok
      exact ⟨rfl, r, pushed.moved rfl, more⟩
    | euExit => exact ok
  · obtain ⟨-, rfl, rfl⟩ := taken
    refine inv.stay begun (by simp [Master.phase, pc]) inv.program ?_
    cases waker with
    | euRunEmpty caller scratch =>
      obtain ⟨⟨rfl, r, pushed, more⟩, -⟩ := ok
      exact ⟨rfl, r, pushed.moved rfl, more⟩
    | euExit => exact ok.1
  · obtain ⟨rfl, rfl⟩ := taken
    exact inv.move begun inv.program ⟨rfl, ok.2, ok.1.calls⟩ workers trivial (not_awake_of_asleep rfl)

/-- The workers are woken: for a region, or to leave. -/
theorem Inv.wake_step (inv : Inv regions s) (few : n + 1 ≤ 31) {waker : Waker}
    (pc : s.master.pc = .wakeSet waker) {m : Master} {shared : Shared}
    (taken : masterStep (BitVec.ofNat 32 (n + 1)) (arrived s) s.shared s.master = some (m, shared)) :
    Inv regions { s with master := m, shared } := by
  have begun : s.master.pc ≠ .euInit := by simp [pc]
  have ok := inv.core0
  have workers := inv.workers
  simp only [MasterOk, pc] at ok
  simp only [Master.phase, pc] at workers
  have woken : ∀ m : Master, ∀ i : Fin n, ({ s with
      master := m
      shared := snrtIntClusterSet (wakeMask (BitVec.ofNat 32 (n + 1))) s.shared } : State n).view i =
        (true, s.workers i) := by
    intro m i
    have worker : 1 ≤ coreIdx i ∧ coreIdx i ≤ n := by
      have := i.isLt
      unfold coreIdx
      omega
    refine Prod.ext ?_ rfl
    simp only [State.view, snrtIntClusterSet]
    rw [BitVec.getLsbD_or, getLsbD_wakeMask few worker, Bool.or_true]
  -- the counters do not depend on the interrupts
  have inLoop : ∀ m : Master, population (fun _ => InLoop) ({ s with
      master := m
      shared := snrtIntClusterSet (wakeMask (BitVec.ofNat 32 (n + 1))) s.shared } : State n).view =
        population (fun _ => InLoop) s.view := fun m =>
    population_congr fun i => by rw [woken]; exact Iff.rfl
  have inWfi : ∀ m : Master, population (fun _ => InWfi) ({ s with
      master := m
      shared := snrtIntClusterSet (wakeMask (BitVec.ofNat 32 (n + 1))) s.shared } : State n).view =
        population (fun _ => InWfi) s.view := fun m =>
    population_congr fun i => by rw [woken]; exact Iff.rfl
  cases waker with
  | euRunEmpty caller scratch =>
    obtain ⟨rfl, r, pushed, threads, team, none, calls⟩ := ok
    simp only [masterStep, pc, Option.some.injEq, Prod.mk.injEq] at taken
    obtain ⟨rfl, rfl⟩ := taken
    have awake : Master.phase { s.master with pc := .testThreads .parallelRegion scratch } =
        .awake s.master.finished r := running_team pushed.todo team
    refine ⟨inv.program, ⟨rfl, r, ?_, threads, calls⟩, fun i => ?_, ?_, fun _ => ?_, fun _ => ?_,
      fun _ _ _ => ?_⟩
    · exact ⟨pushed.todo, pushed.exitFlag, pushed.call, pushed.nthreads⟩
    · obtain ⟨-, calls, at_⟩ := workers i
      have at_ : (s.workers i).pc = .wfi := at_
      rw [awake, woken]
      simp only [WorkerOk, AwakeOk, at_, if_true]
      exact calls
    · rw [awake]
      exact ⟨pushed.exitFlag, pushed.call, pushed.nthreads⟩
    · rw [inLoop]
      exact inv.inLoop begun
    · rw [inWfi]
      exact inv.inWfi begun
    · have asleep : population (fun _ => Fini) ({ s with
          master := { s.master with pc := .testThreads .parallelRegion scratch }
          shared := snrtIntClusterSet (wakeMask (BitVec.ofNat 32 (n + 1))) s.shared } :
            State n).view = 0 := by
        refine population_eq_zero.mpr fun i => ?_
        have at_ : (s.workers i).pc = .wfi := (workers i).2.2
        rw [woken]
        simp [Fini, at_]
      rw [asleep]
      exact none
  | euExit =>
    simp only [masterStep, pc, Option.some.injEq, Prod.mk.injEq] at taken
    obtain ⟨rfl, rfl⟩ := taken
    refine ⟨inv.program, ok, fun i => ?_, ok.1, fun _ => ?_, fun _ => ?_, ?_⟩
    · obtain ⟨-, calls, at_⟩ := workers i
      have at_ : (s.workers i).pc = .wfi := at_
      rw [woken]
      simp only [Master.phase, WorkerOk, at_]
      exact ⟨calls, trivial⟩
    · rw [inLoop]
      exact inv.inLoop begun
    · rw [inWfi]
      exact inv.inWfi begun
    · intro finished cur awake
      cases awake

theorem toNat_pos {x : BitVec 32} (some : x ≠ 0) : 0 < x.toNat :=
  Nat.pos_of_ne_zero fun zero => some (BitVec.eq_of_toNat_eq zero)

/-- Core 0 takes part in the region. -/
theorem Inv.run_step (inv : Inv regions s) (valid : ∀ r ∈ regions, r.numThreads ≠ 0)
    (pc : (∃ caller scratch, s.master.pc = .testThreads caller scratch) ∨
      (∃ caller scratch, s.master.pc = .loadFn caller scratch) ∨
      (∃ caller scratch fn, s.master.pc = .loadData caller scratch fn) ∨
      (∃ caller scratch fn data, s.master.pc = .loadArgc caller scratch fn data) ∨
      ∃ caller scratch c, s.master.pc = .call caller scratch c) {m : Master} {shared : Shared}
    (taken : masterStep (BitVec.ofNat 32 (n + 1)) (arrived s) s.shared s.master = some (m, shared)) :
    Inv regions { s with master := m, shared } := by
  have begun : s.master.pc ≠ .euInit := by
    rcases pc with ⟨_, _, pc⟩ | ⟨_, _, pc⟩ | ⟨_, _, _, pc⟩ | ⟨_, _, _, _, pc⟩ | ⟨_, _, _, pc⟩ <;>
      simp [pc]
  have ok := inv.core0
  rcases pc with ⟨caller, scratch, pc⟩ | ⟨caller, scratch, pc⟩ | ⟨caller, scratch, fn, pc⟩ |
      ⟨caller, scratch, fn, data, pc⟩ | ⟨caller, scratch, c, pc⟩ <;>
    simp only [masterStep, pc, Option.some.injEq, Prod.mk.injEq] at taken <;>
    simp only [MasterOk, pc] at ok <;> obtain ⟨rfl, rfl⟩ := taken <;>
    obtain ⟨rfl, r, pushed, threads, more⟩ := ok
  · have busy : 0#32 < s.shared.e.nthreads := by
      rw [pushed.nthreads]
      exact toNat_pos (valid r (pushed.mem inv.program))
    rw [if_pos busy]
    refine inv.stay begun (by simp [Master.phase, pc, Master.running]) inv.program
      ⟨rfl, r, pushed.moved rfl, threads, more⟩
  · refine inv.stay begun (by simp [Master.phase, pc, Master.running]) inv.program
      ⟨rfl, r, pushed.moved rfl, threads, more, congrArg Call.fn pushed.call⟩
  · refine inv.stay begun (by simp [Master.phase, pc, Master.running]) inv.program
      ⟨rfl, r, pushed.moved rfl, threads, more.1, more.2, congrArg Call.data pushed.call⟩
  · obtain ⟨calls, rfl, rfl⟩ := more
    have same : ({ fn := r.fn, data := r.data, argc := s.shared.e.argc } : Call) = r.toCall := by
      rw [← pushed.call]
    have joins : 0 < r.numThreads.toNat := toNat_pos (valid r (pushed.mem inv.program))
    refine inv.stay begun (by simp [Master.phase, pc, Master.running]) inv.program
      ⟨rfl, r, pushed.moved rfl, threads, ?_, same⟩
    rw [callsOf_append_self joins, ← calls, same]
  · refine inv.stay begun (by simp [Master.phase, pc, Master.running]) inv.program
      ⟨rfl, r, pushed.moved rfl, threads, more.1⟩

/-- Core 0 waits for the team, and the region is over. -/
theorem Inv.finish_step (inv : Inv regions s) (few : n + 1 ≤ 31)
    (pc : (∃ caller scratch, s.master.pc = .emptyTest caller scratch) ∨
      (∃ caller scratch, s.master.pc = .emptyWait caller scratch) ∨
      ∃ caller, s.master.pc = .emptyClear caller) {m : Master} {shared : Shared}
    (taken : masterStep (BitVec.ofNat 32 (n + 1)) (arrived s) s.shared s.master = some (m, shared)) :
    Inv regions { s with master := m, shared } := by
  have begun : s.master.pc ≠ .euInit := by
    rcases pc with ⟨_, _, pc⟩ | ⟨_, _, pc⟩ | ⟨_, pc⟩ <;> simp [pc]
  have ok := inv.core0
  have workers := inv.workers
  have take_one : ∀ r, s.master.todo.head? = some r → s.master.todo.take 1 = [r] := by
    intro r first
    cases todo : s.master.todo with
    | nil => simp [todo] at first
    | cons cur rest =>
      rw [todo] at first
      cases first
      rfl
  rcases pc with ⟨caller, scratch, pc⟩ | ⟨caller, scratch, pc⟩ | ⟨caller, pc⟩ <;>
    simp only [masterStep, pc, Option.ite_none_right_eq_some, Option.some.injEq, Prod.mk.injEq]
      at taken <;> simp only [MasterOk, pc] at ok
  · obtain ⟨rfl, rfl⟩ := taken
    obtain ⟨rfl, r, pushed, threads, calls⟩ := ok
    by_cases team : 1#32 < scratch
    · have phase : s.master.phase = .awake s.master.finished r := by
        simp only [Master.phase, pc]
        exact running_team pushed.todo team
      have loop := inv.workersInLoop begun (by rw [phase]; trivial)
      rw [if_pos team]
      refine inv.stay begun ?_ inv.program ⟨rfl, r, pushed.moved rfl, loop, calls⟩
      rw [phase]
      exact running_team pushed.todo (by decide)
    · have phase : s.master.phase = .asleep s.master.finished := by
        simp only [Master.phase, pc]
        exact running_single team
      rw [if_neg team]
      refine inv.move begun inv.program ⟨rfl, r, pushed.moved rfl, calls⟩ (fun i => ?_) trivial
        (not_awake_of_settling rfl)
      -- the region was core 0's only
      have ok := workers i
      rw [phase] at ok
      obtain ⟨quiet, before, at_⟩ := ok
      have out : ¬coreIdx i < r.numThreads.toNat := by
        rw [← threads]
        rw [BitVec.lt_def] at team
        have one : (1#32).toNat = 1 := rfl
        unfold coreIdx
        omega
      refine ⟨quiet, ?_, Or.inr at_⟩
      simp only [take_one r pushed.todo]
      rw [callsOf_append_other out]
      exact before
  · obtain ⟨full, rfl, rfl⟩ := taken
    obtain ⟨rfl, r, pushed, is, calls⟩ := ok
    have phase : s.master.phase = .awake s.master.finished r := by
      simp only [Master.phase, pc]
      exact running_team pushed.todo (by decide)
    refine inv.move begun inv.program ⟨rfl, r, pushed.moved rfl, calls⟩ (fun i => ?_) trivial
      (not_awake_of_settling rfl)
    have counted := counter_full (inv.fini _ _ phase) (full.trans is) (Fintype.card_fin n) (by omega) i
    have settled : Master.phase { s.master with pc := .emptyClear .parallelRegion } =
        .settling (s.master.finished ++ [r]) := by
      simp only [Master.phase, take_one r pushed.todo]
    have ok := workers i
    rw [phase] at ok
    rw [settled]
    cases at_ : (s.view i).2.pc <;> simp only [Fini, at_] at counted <;>
      simp only [WorkerOk, AwakeOk, at_] at ok
    · exact ⟨ok.1, ok.2, Or.inl at_⟩
    · simp only [counted] at ok
      exact ⟨counted, ok, Or.inr at_⟩
  · obtain ⟨rfl, rfl⟩ := taken
    obtain ⟨rfl, r, pushed, calls⟩ := ok
    simp only [Master.phase, pc] at workers
    refine inv.move begun ?_ ⟨pushed.exitFlag, rfl, ?_⟩ workers trivial (not_awake_of_settling rfl)
    · have split := List.take_append_drop 1 s.master.todo
      rw [List.drop_one] at split
      rw [← inv.program]
      simp [Master.euRunEmptyReturns, split]
    · simp only [Master.euRunEmptyReturns, take_one r pushed.todo]
      exact calls

theorem Inv.master (inv : Inv regions s) (few : n + 1 ≤ 31)
    (valid : ∀ r ∈ regions, r.numThreads ≠ 0) {t : State n}
    (taken : (eventUnit n).step .master s = some t) : Inv regions t := by
  obtain ⟨⟨m, shared⟩, stepped, rfl⟩ := Option.map_eq_some_iff.mp taken
  cases pc : s.master.pc with
  | euInit =>
    simp only [masterStep, pc, Option.some.injEq, Prod.mk.injEq] at stepped
    obtain ⟨rfl, rfl⟩ := stepped
    exact inv.euInit pc
  | hwBarrier =>
    have ok := inv.core0
    simp only [MasterOk, pc] at ok
    simp only [masterStep, pc, Option.ite_none_right_eq_some, Option.some.injEq, Prod.mk.injEq]
      at stepped
    obtain ⟨-, rfl, rfl⟩ := stepped
    exact inv.stay (by simp [pc]) (by simp [Master.phase, pc]) inv.program ok
  | bootWait =>
    simp only [masterStep, pc, Option.ite_none_right_eq_some, Option.some.injEq, Prod.mk.injEq]
      at stepped
    obtain ⟨full, rfl, rfl⟩ := stepped
    exact inv.bootWait few pc full
  | idle | pushLoad | pushWait _ | exitTest | exitLoad | exitWait _ =>
    exact inv.settling_step few (by simp [Master.phase, pc]; rfl) (by simp [pc]) stepped
  | pushFn => exact inv.push_step (Or.inl pc) stepped
  | pushData => exact inv.push_step (Or.inr (Or.inl pc)) stepped
  | pushArgc => exact inv.push_step (Or.inr (Or.inr (Or.inl pc))) stepped
  | pushThreads => exact inv.push_step (Or.inr (Or.inr (Or.inr pc))) stepped
  | emptyLoad caller =>
    cases caller with
    | parallelRegion => exact inv.asleep_step valid (Or.inl pc) stepped
    | euExit => exact inv.settling_step few (by simp [Master.phase, pc]; rfl) (by simp [pc]) stepped
  | emptyReset caller scratch => exact inv.asleep_step valid (Or.inr (Or.inl ⟨_, _, pc⟩)) stepped
  | wakeLoad waker => exact inv.asleep_step valid (Or.inr (Or.inr (Or.inl ⟨_, pc⟩))) stepped
  | wakeWait waker scratch =>
    exact inv.asleep_step valid (Or.inr (Or.inr (Or.inr (Or.inl ⟨_, _, pc⟩)))) stepped
  | exitFlag => exact inv.asleep_step valid (Or.inr (Or.inr (Or.inr (Or.inr pc)))) stepped
  | wakeSet waker => exact inv.wake_step few pc stepped
  | testThreads caller scratch => exact inv.run_step valid (Or.inl ⟨_, _, pc⟩) stepped
  | loadFn caller scratch => exact inv.run_step valid (Or.inr (Or.inl ⟨_, _, pc⟩)) stepped
  | loadData caller scratch fn =>
    exact inv.run_step valid (Or.inr (Or.inr (Or.inl ⟨_, _, _, pc⟩))) stepped
  | loadArgc caller scratch fn data =>
    exact inv.run_step valid (Or.inr (Or.inr (Or.inr (Or.inl ⟨_, _, _, _, pc⟩)))) stepped
  | call caller scratch c =>
    exact inv.run_step valid (Or.inr (Or.inr (Or.inr (Or.inr ⟨_, _, _, pc⟩)))) stepped
  | emptyTest caller scratch => exact inv.finish_step few (Or.inl ⟨_, _, pc⟩) stepped
  | emptyWait caller scratch => exact inv.finish_step few (Or.inr (Or.inl ⟨_, _, pc⟩)) stepped
  | emptyClear caller => exact inv.finish_step few (Or.inr (Or.inr ⟨_, pc⟩)) stepped
  | done => simp [masterStep, pc] at stepped

end MasterStep

/-! ## No core waits for ever -/

section Progress

variable {n : Nat} {regions : List Region} {s : State n}

/-- A worker that cannot move waits for core 0, or has left. -/
theorem euEventLoop_eq_none {idx : Nat} {all : Bool} {sh : Shared} {w : Worker}
    (stuck : euEventLoop idx all sh w = none) :
    w.pc = .euInit ∧ sh.euPGlobal = false ∨ w.pc = .hwBarrier ∧ all = false ∨
      w.pc = .wfi ∧ sh.clClint.getLsbD idx = false ∨ w.pc = .left := by
  cases pc : w.pc <;> simp [euEventLoop, pc] at stuck <;> simp [stuck]

/-- Core 0 can move once the counter that it waits for is full. -/
theorem masterStep_ne_none {numcores : BitVec 32} {all : Bool} {sh : Shared} {m : Master}
    (ok : MasterOk n sh m) (late : m.phase.Late) (not_done : m.pc ≠ .done)
    (wfi : (∀ finished cur, m.phase ≠ .awake finished cur) → sh.workersWfi = BitVec.ofNat 32 n)
    (fini : ∀ finished cur, m.phase = .awake finished cur → sh.e.finiCount = BitVec.ofNat 32 n) :
    masterStep numcores all sh m ≠ none := by
  cases pc : m.pc <;> simp only [Master.phase, pc] at late wfi fini <;>
    simp only [MasterOk, pc] at ok <;> simp only [masterStep, pc, ne_eq]
  case euInit | hwBarrier | bootWait => exact late.elim
  case done => exact absurd pc not_done
  case pushWait scratch =>
    rw [if_pos ((wfi (by simp)).trans ok.2.2.symm)]
    simp
  case exitWait scratch =>
    rw [if_pos ((wfi (by simp)).trans ok.2.2.symm)]
    simp
  case wakeWait waker scratch =>
    rw [if_pos ((wfi (by simp)).trans ok.2.symm)]
    simp
  case emptyWait caller scratch =>
    obtain ⟨rfl, r, pushed, is, -⟩ := ok
    rw [if_pos ((fini _ _ (running_team pushed.todo (by decide))).trans is.symm)]
    simp
  case pushFn =>
    cases todo : m.todo with
    | nil => exact absurd todo ok.2
    | cons r rest => simp
  case pushData =>
    obtain ⟨-, r, first, -⟩ := ok
    simp [first]
  case pushArgc =>
    obtain ⟨-, r, first, -⟩ := ok
    simp [first]
  case pushThreads =>
    obtain ⟨-, r, first, -⟩ := ok
    simp [first]
  case emptyLoad caller => split <;> simp
  case wakeSet waker => cases waker <;> simp
  all_goals simp

theorem running_late {m : Master} {scratch : BitVec 32} : (m.running scratch).Late := by
  unfold Master.running
  split
  · trivial
  · split <;> trivial

theorem pc_of_not_late {m : Master} (early : ¬m.phase.Late) :
    m.pc = .euInit ∨ m.pc = .hwBarrier ∨ m.pc = .bootWait := by
  cases pc : m.pc <;> simp only [Master.phase, pc] at early
  case euInit | hwBarrier | bootWait => simp
  case emptyLoad caller => cases caller <;> exact absurd trivial early
  case testThreads | loadFn | loadData | loadArgc | call | emptyTest | emptyWait =>
    exact absurd running_late early
  all_goals exact absurd trivial early

theorem pc_of_leaving {m : Master} {finished : List Region} (phase : m.phase = .leaving finished) :
    m.pc = .done := by
  cases pc : m.pc <;> simp only [Master.phase, pc, reduceCtorEq] at phase
  case done => rfl
  case emptyLoad caller => cases caller <;> cases phase
  all_goals
    unfold Master.running at phase
    split at phase
    · cases phase
    · split at phase <;> cases phase

/-- All regions have been run and all workers have left. -/
def Over (s : State n) : Prop := s.master.pc = .done ∧ ∀ i, (s.workers i).pc = .left

/-- **Some core can move**, until it is all over. -/
theorem Inv.progress (inv : Inv regions s) :
    Over s ∨ ∃ l, (eventUnit n).step l s ≠ none := by
  refine or_iff_not_imp_right.mpr fun stuck => ?_
  have stuck : ∀ l, (eventUnit n).step l s = none := by simpa using stuck
  have worker : ∀ i, euEventLoop (coreIdx i) (arrived s) s.shared (s.workers i) = none := fun i =>
    Option.map_eq_none_iff.mp (stuck (.worker i))
  have master : masterStep (BitVec.ofNat 32 (n + 1)) (arrived s) s.shared s.master = none :=
    Option.map_eq_none_iff.mp (stuck .master)
  have waits := fun i => euEventLoop_eq_none (worker i)
  have workers := inv.workers
  have shared := inv.shared
  have counted : s.master.pc ≠ .euInit → (∀ i, (s.workers i).pc = .wfi) →
      s.shared.workersWfi = BitVec.ofNat 32 n := by
    intro begun all
    rw [inv.inWfi begun, population_eq_card.mpr fun i => by simp [InWfi, State.view, all],
      Fintype.card_fin]
  by_cases late : s.master.phase.Late
  · by_cases done : s.master.pc = .done
    · refine ⟨done, fun i => ?_⟩
      have ok := workers i
      simp only [Master.phase, done] at ok
      obtain ⟨-, place⟩ := ok
      simp only [State.view] at place
      rcases waits i with ⟨pc, -⟩ | ⟨pc, -⟩ | ⟨pc, quiet⟩ | pc
      · simp [pc] at place
      · simp [pc] at place
      · simp [pc, quiet] at place
      · exact pc
    · have begun : s.master.pc ≠ .euInit := by
        intro pc
        simp [Master.phase, pc, Phase.Late] at late
      refine absurd master (masterStep_ne_none inv.core0 late done (fun busy => ?_) ?_)
      · refine counted begun fun i => ?_
        have ok := workers i
        cases phase : s.master.phase with
        | start => simp [phase, Phase.Late] at late
        | boot => simp [phase, Phase.Late] at late
        | awake finished cur => exact absurd phase (busy finished cur)
        | leaving finished => exact absurd (pc_of_leaving phase) done
        | asleep settled =>
          rw [phase] at ok
          exact ok.2.2
        | settling settled =>
          rw [phase] at ok
          obtain ⟨-, -, pc | pc⟩ := ok
          · have pc : (s.workers i).pc = .addWfi := pc
            simpa [pc] using waits i
          · exact pc
      · intro finished cur phase
        rw [inv.fini finished cur phase]
        congr 1
        refine (population_eq_card.mpr fun i => ?_).trans (Fintype.card_fin n)
        have ok := workers i
        rw [phase] at ok
        rcases waits i with ⟨pc, -⟩ | ⟨pc, -⟩ | ⟨pc, quiet⟩ | pc
        · simp [WorkerOk, AwakeOk, State.view, pc] at ok
        · simp [WorkerOk, AwakeOk, State.view, pc] at ok
        · simp [Fini, State.view, pc, quiet]
        · simp [WorkerOk, AwakeOk, State.view, pc] at ok
  · obtain pc | boot := pc_of_not_late late
    · simp [masterStep, pc] at master
    · have begun : s.master.pc ≠ .euInit := by rcases boot with pc | pc <;> simp [pc]
      have phase : s.master.phase = .boot := by rcases boot with pc | pc <;> simp [Master.phase, pc]
      rw [phase] at workers shared
      have entered : ∀ i, (s.workers i).pc ≠ .euInit := by
        intro i pc
        rcases waits i with ⟨-, unpublished⟩ | ⟨pc', -⟩ | ⟨pc', -⟩ | pc'
        · rw [shared.1] at unpublished
          cases unpublished
        all_goals simp [pc] at pc'
      have opened : arrived s = true := by
        unfold arrived
        exact decide_eq_true ⟨begun, entered⟩
      have asleep : ∀ i, (s.workers i).pc = .wfi := by
        intro i
        rcases waits i with ⟨pc, -⟩ | ⟨-, closed⟩ | ⟨pc, -⟩ | pc
        · exact absurd pc (entered i)
        · rw [opened] at closed
          cases closed
        · exact pc
        · have ok := workers i
          simp [WorkerOk, State.view, pc] at ok
      rcases boot with pc | pc
      · simp [masterStep, pc, opened] at master
      · simp only [masterStep, pc, numcores_sub_one, counted begun asleep, if_true] at master
        cases master

end Progress

/-! ## No run goes on for ever -/

section Bound

variable {n : Nat} {regions : List Region} {s : State n}

/-- The steps that a worker has left until it sleeps. -/
def workerRank (v : View) : Nat :=
  match v.2.pc with
  | .euInit => 11
  | .hwBarrier | .clr => 10
  | .addInLoop | .subWfi => 9
  | .testExit => 8
  | .testThreads => 7
  | .loadFn => 6
  | .loadData _ => 5
  | .loadArgc _ _ => 4
  | .call _ => 3
  | .addFini => 2
  | .addWfi => 1
  | .wfi => if v.1 then 11 else 0
  | .left => 0

/-- The steps that core 0 has left until its next region or the end, and those of the `n`
workers that it still wakes. -/
def masterRank (n : Nat) : MasterPc → Nat
  | .euInit => 11 * n + 25
  | .hwBarrier => 11 * n + 24
  | .bootWait => 11 * n + 23
  | .idle => 11 * n + 22
  | .pushLoad => 11 * n + 21
  | .pushWait _ => 11 * n + 20
  | .pushFn => 11 * n + 19
  | .pushData => 11 * n + 18
  | .pushArgc => 11 * n + 17
  | .pushThreads => 11 * n + 16
  | .emptyLoad .parallelRegion => 11 * n + 15
  | .emptyReset _ _ => 11 * n + 14
  | .wakeLoad (.euRunEmpty _ _) => 11 * n + 13
  | .wakeWait (.euRunEmpty _ _) _ => 11 * n + 12
  | .wakeSet (.euRunEmpty _ _) => 11 * n + 11
  | .testThreads _ _ => 10
  | .loadFn _ _ => 9
  | .loadData _ _ _ => 8
  | .loadArgc _ _ _ _ => 7
  | .call _ _ _ => 6
  | .emptyTest _ _ => 5
  | .emptyWait _ _ => 4
  | .emptyClear _ => 3
  | .exitTest => 11 * n + 10
  | .emptyLoad .euExit => 11 * n + 9
  | .exitLoad => 11 * n + 8
  | .exitWait _ => 11 * n + 7
  | .exitFlag => 11 * n + 6
  | .wakeLoad .euExit => 11 * n + 5
  | .wakeWait .euExit _ => 11 * n + 4
  | .wakeSet .euExit => 11 * n + 3
  | .done => 0

def Master.rank (n : Nat) (m : Master) : Nat := masterRank n m.pc + m.todo.length * (11 * n + 22)

/-- What all cores have left to do. -/
def State.rank (s : State n) : Nat := s.master.rank n + ∑ i, workerRank (s.view i)

theorem workerRank_lt {idx : Nat} {all : Bool} {sh sh' : Shared} {w w' : Worker} {phase : Phase}
    (ok : WorkerOk phase idx (sh.clClint.getLsbD idx, w))
    (taken : euEventLoop idx all sh w = some (w', sh')) :
    workerRank (sh'.clClint.getLsbD idx, w') < workerRank (sh.clClint.getLsbD idx, w) := by
  cases pc : w.pc <;> simp only [euEventLoop, pc, Option.ite_none_right_eq_some,
    Option.some.injEq, Prod.mk.injEq, reduceCtorEq] at taken
  case wfi =>
    obtain ⟨pending, rfl, rfl⟩ := taken
    simp [workerRank, pc, pending]
  case euInit | hwBarrier =>
    obtain ⟨-, rfl, rfl⟩ := taken
    simp [workerRank, pc]
  case testExit =>
    obtain ⟨rfl, rfl⟩ := taken
    by_cases exits : sh.exitFlag = 0#32 <;> simp [workerRank, pc, exits]
  case testThreads =>
    obtain ⟨rfl, rfl⟩ := taken
    by_cases joins : idx < sh.e.nthreads.toNat <;> simp [workerRank, pc, joins]
  case addWfi =>
    obtain ⟨rfl, rfl⟩ := taken
    have quiet : sh.clClint.getLsbD idx = false := by
      cases phase <;> simp_all [WorkerOk, AwakeOk]
    simp [workerRank, pc, quiet]
  all_goals
    obtain ⟨rfl, rfl⟩ := taken
    simp [workerRank, pc]

/-- A wake-up takes eleven steps. -/
theorem workerRank_wake (b b' : Bool) (w : Worker) :
    workerRank (b', w) ≤ workerRank (b, w) + 11 := by
  cases pc : w.pc <;> cases b' <;> simp [workerRank, pc]

/-- Core 0 pays for the workers that it wakes. -/
theorem masterRank_lt {numcores : BitVec 32} {all : Bool} {sh sh' : Shared} {m m' : Master}
    (ok : MasterOk n sh m) (taken : masterStep numcores all sh m = some (m', sh')) :
    m'.rank n + (if sh'.clClint = sh.clClint then 0 else 11 * n) < m.rank n := by
  -- one region less pays for a return to `idle`
  have returns : ∀ r, Pushed sh m r → (m.euRunEmptyReturns .parallelRegion).rank n ≤
      m.todo.length * (11 * n + 22) := by
    intro r pushed
    have first := pushed.todo
    cases todo : m.todo with
    | nil => simp [todo] at first
    | cons cur rest =>
      simp only [Master.rank, masterRank, Master.euRunEmptyReturns, todo, List.tail_cons,
        List.length_cons, Nat.add_mul]
      omega
  cases pc : m.pc <;> simp only [masterStep, pc, Option.ite_none_right_eq_some,
    Option.some.injEq, Prod.mk.injEq, Option.map_eq_some_iff, reduceCtorEq] at taken
  case hwBarrier | bootWait | pushWait | exitWait | emptyWait =>
    obtain ⟨-, rfl, rfl⟩ := taken
    simp [Master.rank, masterRank, pc]
  case wakeWait waker scratch =>
    obtain ⟨-, rfl, rfl⟩ := taken
    cases waker <;> simp [Master.rank, masterRank, pc]
  case wakeLoad waker =>
    obtain ⟨rfl, rfl⟩ := taken
    cases waker <;> simp [Master.rank, masterRank, pc]
  case pushFn | pushData | pushArgc | pushThreads =>
    obtain ⟨r, -, rfl, rfl⟩ := taken
    simp [Master.rank, masterRank, pc]
  case idle =>
    obtain ⟨rfl, rfl⟩ := taken
    by_cases empty : m.todo = [] <;> simp [Master.rank, masterRank, pc, empty]
  case emptyReset caller scratch =>
    obtain ⟨rfl, rfl⟩ := taken
    by_cases team : 1#32 < scratch <;> simp [Master.rank, masterRank, pc, team]
  case testThreads caller scratch =>
    obtain ⟨rfl, rfl⟩ := taken
    by_cases busy : 0#32 < sh.e.nthreads <;> simp [Master.rank, masterRank, pc, busy]
  case emptyTest caller scratch =>
    obtain ⟨rfl, rfl⟩ := taken
    by_cases team : 1#32 < scratch <;> simp [Master.rank, masterRank, pc, team]
  case exitTest =>
    obtain ⟨rfl, rfl⟩ := taken
    by_cases empty : sh.e.nthreads = 0#32 <;> simp [Master.rank, masterRank, pc, empty]
  case emptyClear caller =>
    obtain ⟨rfl, rfl⟩ := taken
    simp only [MasterOk, pc] at ok
    obtain ⟨rfl, r, pushed, -⟩ := ok
    have le := returns r pushed
    have before : m.rank n = 3 + m.todo.length * (11 * n + 22) := by simp [Master.rank, masterRank, pc]
    simp only [if_true]
    omega
  case emptyLoad caller =>
    cases caller with
    | parallelRegion =>
      simp only [MasterOk, pc] at ok
      obtain ⟨r, pushed, -⟩ := ok
      have le := returns r pushed
      split at taken
      · cases taken
        have before : m.rank n = 11 * n + 15 + m.todo.length * (11 * n + 22) := by
          simp [Master.rank, masterRank, pc]
        simp only [if_true]
        omega
      · cases taken
        simp [Master.rank, masterRank, pc]
    | euExit =>
      simp only [MasterOk, pc] at ok
      rw [if_pos ok.1.nthreads] at taken
      cases taken
      simp [Master.rank, masterRank, pc, Master.euRunEmptyReturns]
  case wakeSet waker =>
    cases waker with
    | euRunEmpty caller scratch =>
      cases taken
      unfold Master.rank
      simp only [masterRank, pc]
      split <;> omega
    | euExit =>
      cases taken
      unfold Master.rank
      simp only [masterRank, pc]
      split <;> omega
  all_goals
    obtain ⟨rfl, rfl⟩ := taken
    simp [Master.rank, masterRank, pc, Shared.init]

theorem Inv.rank_lt (inv : Inv regions s) (few : n + 1 ≤ 31) {t : State n} {l : Label n}
    (taken : (eventUnit n).step l s = some t) : t.rank < s.rank := by
  cases l with
  | worker i =>
    obtain ⟨⟨worker, shared⟩, stepped, rfl⟩ := Option.map_eq_some_iff.mp taken
    have small : coreIdx i < 32 := by
      have := i.isLt
      unfold coreIdx
      omega
    have view := view_update s i worker shared (euEventLoop_frame small stepped).bits
    have less := workerRank_lt (inv.workers i) stepped
    have total := sum_update (fun _ => workerRank) s.view i (shared.clClint.getLsbD (coreIdx i), worker)
    unfold State.rank
    rw [view]
    have here : workerRank (s.view i) =
      workerRank (s.shared.clClint.getLsbD (coreIdx i), s.workers i) := rfl
    simp only at total ⊢
    omega
  | master =>
    obtain ⟨⟨m, shared⟩, stepped, rfl⟩ := Option.map_eq_some_iff.mp taken
    have less := masterRank_lt inv.core0 stepped
    unfold State.rank
    split at less
    next same =>
      have view : ({ s with master := m, shared } : State n).view = s.view := by
        funext i
        simp [State.view, same]
      rw [view]
      simp only
      omega
    next woken =>
      have each : ∀ i, workerRank (({ s with master := m, shared } : State n).view i) ≤
          workerRank (s.view i) + 11 := fun i => workerRank_wake _ _ _
      have sum := Finset.sum_le_sum fun i (_ : i ∈ Finset.univ) => each i
      rw [Finset.sum_add_distrib, Finset.sum_const_nat fun _ _ => rfl, Finset.card_univ,
        Fintype.card_fin] at sum
      simp only
      omega

theorem Inv.run_bound (inv : Inv regions s) (few : n + 1 ≤ 31)
    (valid : ∀ r ∈ regions, r.numThreads ≠ 0) {t : State n} (schedule : List (Label n))
    (ran : (eventUnit n).run s schedule = some t) : schedule.length + t.rank ≤ s.rank := by
  induction schedule generalizing s with
  | nil =>
    cases ran
    simp
  | cons l rest ih =>
    obtain ⟨next, taken, ran⟩ := Option.bind_eq_some_iff.mp ran
    have less := inv.rank_lt few taken
    have after : Inv regions next := by
      cases l with
      | master => exact inv.master few valid taken
      | worker i => exact inv.worker few i taken
    have bound := ih after ran
    rw [List.length_cons]
    omega

end Bound

/-! ## Fork and join -/

section ForkJoin

variable {n : Nat} {regions : List Region}

theorem inv_start (eu : Shared) : Inv regions (start n regions eu) where
  program := rfl
  core0 := ⟨rfl, rfl⟩
  workers i := ⟨by simp [State.view, start], rfl⟩
  shared := rfl
  inLoop begun := absurd rfl begun
  inWfi begun := absurd rfl begun
  fini finished cur awake := by cases awake

theorem inv_reachable (few : n + 1 ≤ 31) (valid : ∀ r ∈ regions, r.numThreads ≠ 0) {eu : Shared}
    {s : State n} (reached : (eventUnit n).Reachable (start n regions eu) s) : Inv regions s := by
  refine reached.invariant (Inv regions) (inv_start eu) fun s l t inv _ taken => ?_
  cases l with
  | master => exact inv.master few valid taken
  | worker i => exact inv.worker few i taken

/-- What each core has called so far, core 0 first. -/
def State.calls (s : State n) (core : Fin (n + 1)) : List Call :=
  Fin.cases (motive := fun _ => List Call) s.master.calls (fun i => (s.workers i).calls) core

/-- No worker is in a microtask. -/
def State.Joined (s : State n) : Prop := ∀ i c, (s.workers i).pc ≠ .call c

/-- A core has called what it had to for the regions behind it, and the current region once
or not yet; it calls no region that it is not in the team of. -/
def Once (finished todo : List Region) (idx : Nat) (calls : List Call) : Prop :=
  calls = callsOf idx finished ∨ ∃ r rest, todo = r :: rest ∧ idx < r.numThreads.toNat ∧
    calls = callsOf idx finished ++ [r.toCall]

/-- Fork and join, as seen in one state. -/
structure ForkJoin (regions : List Region) (s : State n) : Prop where
  /-- `eu_run_empty` has returned from the first of the regions. -/
  program : s.master.finished ++ s.master.todo = regions
  once : ∀ core : Fin (n + 1), Once s.master.finished s.master.todo core (s.calls core)
  /-- When `eu_run_empty` has returned, the whole team has finished. -/
  joined : s.master.pc = .idle →
    (∀ core : Fin (n + 1), s.calls core = callsOf core s.master.finished) ∧ s.Joined
  /-- After `eu_exit` everything has been called and nothing will be. -/
  exited : s.master.pc = .done →
    (∀ core : Fin (n + 1), s.calls core = callsOf core regions) ∧ s.Joined
  /-- Some core can move until all workers have left. -/
  progress : Over s ∨ ∃ l, (eventUnit n).step l s ≠ none

theorem once_settled {finished todo rest : List Region} {r : Region} {idx : Nat} {calls : List Call}
    (first : todo = r :: rest) (settled : calls = callsOf idx (finished ++ [r])) :
    Once finished todo idx calls := by
  by_cases joins : idx < r.numThreads.toNat
  · exact Or.inr ⟨r, rest, first, joins, settled.trans (callsOf_append_self joins)⟩
  · exact Or.inl (settled.trans (callsOf_append_other joins))

theorem Pushed.todo_cons {sh : Shared} {m : Master} {r : Region} (pushed : Pushed sh m r) :
    ∃ rest, m.todo = r :: rest := by
  have first := pushed.todo
  cases todo : m.todo with
  | nil => simp [todo] at first
  | cons cur rest =>
    rw [todo] at first
    cases first
    exact ⟨rest, rfl⟩

/-- Core 0 itself. -/
theorem MasterOk.once {sh : Shared} {m : Master} (ok : MasterOk n sh m) :
    Once m.finished m.todo 0 m.calls := by
  have after : ∀ r, Pushed sh m r → m.calls = callsOf 0 (m.finished ++ [r]) →
      Once m.finished m.todo 0 m.calls := by
    intro r pushed calls
    obtain ⟨rest, todo⟩ := pushed.todo_cons
    exact once_settled todo calls
  cases pc : m.pc <;> simp only [MasterOk, pc] at ok
  case euInit | hwBarrier | bootWait => exact Or.inl (by simp [ok, callsOf])
  case idle => exact Or.inl ok.calls
  case emptyLoad caller =>
    cases caller with
    | parallelRegion =>
      obtain ⟨r, -, calls⟩ := ok
      exact Or.inl calls
    | euExit => exact Or.inl ok.1.calls
  case wakeLoad waker | wakeSet waker =>
    cases waker with
    | euRunEmpty caller scratch =>
      obtain ⟨-, r, -, -, -, -, calls⟩ := ok
      exact Or.inl calls
    | euExit => exact Or.inl ok.2.2
  case wakeWait waker scratch =>
    cases waker with
    | euRunEmpty caller scratch =>
      obtain ⟨⟨-, r, -, -, -, -, calls⟩, -⟩ := ok
      exact Or.inl calls
    | euExit => exact Or.inl ok.1.2.2
  case emptyReset | testThreads | loadFn =>
    obtain ⟨-, r, -, -, calls⟩ := ok
    exact Or.inl calls
  case loadData | loadArgc =>
    obtain ⟨-, r, -, -, calls, -⟩ := ok
    exact Or.inl calls
  case call =>
    obtain ⟨-, r, pushed, -, calls, -⟩ := ok
    exact after r pushed calls
  case emptyTest | emptyWait =>
    obtain ⟨-, r, pushed, -, calls⟩ := ok
    exact after r pushed calls
  case emptyClear =>
    obtain ⟨-, r, pushed, calls⟩ := ok
    exact after r pushed calls
  case done => exact Or.inl ok.2.2
  all_goals exact Or.inl ok.1.calls

/-- The regions that a phase counts as settled are those that core 0 has finished, and the
current one once the team is through. -/
theorem settled_of_phase {m : Master} {settled : List Region}
    (phase : m.phase = .settling settled ∨ m.phase = .asleep settled ∨ m.phase = .leaving settled) :
    settled = m.finished ∨ ∃ r rest, m.todo = r :: rest ∧ settled = m.finished ++ [r] := by
  have running : ∀ scratch, m.running scratch = .settling settled ∨
      m.running scratch = .asleep settled ∨ m.running scratch = .leaving settled →
      settled = m.finished := by
    intro scratch is
    unfold Master.running at is
    split at is
    · have same : m.finished = settled := by simpa using is
      exact same.symm
    · split at is
      · simp at is
      · have same : m.finished = settled := by simpa using is
        exact same.symm
  cases pc : m.pc <;> simp only [Master.phase, pc, reduceCtorEq, or_false, false_or] at phase
  case testThreads | loadFn | loadData | loadArgc | call | emptyTest | emptyWait =>
    exact Or.inl (running _ phase)
  case emptyLoad caller => cases caller <;> simp at phase <;> exact Or.inl phase.symm
  case emptyClear =>
    cases phase
    cases todo : m.todo with
    | nil => simp
    | cons r rest => exact Or.inr ⟨r, rest, rfl, rfl⟩
  all_goals
    cases phase
    exact Or.inl rfl

theorem awake_of_phase {m : Master} {finished : List Region} {cur : Region}
    (phase : m.phase = .awake finished cur) :
    finished = m.finished ∧ ∃ rest, m.todo = cur :: rest := by
  have running : ∀ scratch, m.running scratch = .awake finished cur →
      finished = m.finished ∧ ∃ rest, m.todo = cur :: rest := by
    intro scratch is
    unfold Master.running at is
    split at is
    · cases is
    next cur' rest todo =>
      split at is
      · cases is
        exact ⟨rfl, rest, todo⟩
      · cases is
  cases pc : m.pc <;> simp only [Master.phase, pc, reduceCtorEq] at phase
  case testThreads | loadFn | loadData | loadArgc | call | emptyTest | emptyWait =>
    exact running _ phase
  case emptyLoad caller => cases caller <;> cases phase

/-- A worker. -/
theorem WorkerOk.once {m : Master} {idx : Nat} {v : View} (ok : WorkerOk m.phase idx v)
    (boot : m.phase = .start ∨ m.phase = .boot → m.finished = []) :
    Once m.finished m.todo idx v.2.calls := by
  have settles : ∀ settled, v.2.calls = callsOf idx settled →
      m.phase = .settling settled ∨ m.phase = .asleep settled ∨ m.phase = .leaving settled →
      Once m.finished m.todo idx v.2.calls := by
    intro settled calls phase
    obtain rfl | ⟨r, rest, first, rfl⟩ := settled_of_phase phase
    · exact Or.inl calls
    · exact once_settled first calls
  cases phase : m.phase with
  | start =>
    rw [phase] at ok
    refine Or.inl ?_
    rw [ok.2, boot (Or.inl phase)]
    rfl
  | boot =>
    rw [phase] at ok
    refine Or.inl ?_
    rw [ok.2.1, boot (Or.inr phase)]
    rfl
  | settling settled =>
    rw [phase] at ok
    exact settles settled ok.2.1 (Or.inl phase)
  | asleep settled =>
    rw [phase] at ok
    exact settles settled ok.2.1 (Or.inr (Or.inl phase))
  | leaving settled =>
    rw [phase] at ok
    exact settles settled ok.1 (Or.inr (Or.inr phase))
  | awake finished cur =>
    rw [phase] at ok
    obtain ⟨rfl, rest, first⟩ := awake_of_phase phase
    cases pc : v.2.pc <;> simp only [WorkerOk, AwakeOk, Past, pc] at ok
    case wfi =>
      split at ok
      · exact Or.inl ok
      · exact once_settled first ok
    case clr => exact Or.inl ok
    case subWfi | testExit | testThreads => exact Or.inl ok.2
    case loadFn | loadData | loadArgc => exact Or.inl ok.2.1
    case call => exact once_settled first ok.2.1
    case addFini | addWfi => exact once_settled first ok.2

/-- Where core 0 is past the bootstrap and not in `eu_run_empty`, no worker runs. -/
theorem Inv.joined {s : State n} (inv : Inv regions s) {settled : List Region}
    (phase : s.master.phase = .settling settled ∨ s.master.phase = .leaving settled) : s.Joined := by
  intro i c pc
  have ok := inv.workers i
  rcases phase with phase | phase <;> simp [phase, WorkerOk, State.view, pc] at ok

theorem Inv.forkJoin {s : State n} (inv : Inv regions s) : ForkJoin regions s where
  program := inv.program
  once core := by
    refine Fin.cases inv.core0.once (fun i => ?_) core
    refine (inv.workers i).once fun early => ?_
    have ok := inv.core0
    have not_late : ¬s.master.phase.Late := by
      rcases early with early | early <;> simp [early, Phase.Late]
    rcases pc_of_not_late not_late with pc | pc | pc <;> simp only [MasterOk, pc] at ok <;> exact ok.1
  joined pc := by
    have phase : s.master.phase = .settling s.master.finished := by simp [Master.phase, pc]
    refine ⟨fun core => ?_, inv.joined (Or.inl phase)⟩
    refine Fin.cases ?_ (fun i => ?_) core
    · have ok := inv.core0
      simp only [MasterOk, pc] at ok
      exact ok.calls
    · have ok := inv.workers i
      rw [phase] at ok
      exact ok.2.1
  exited pc := by
    have phase : s.master.phase = .leaving s.master.finished := by simp [Master.phase, pc]
    have ok := inv.core0
    simp only [MasterOk, pc] at ok
    obtain ⟨-, todo, calls⟩ := ok
    have all : s.master.finished = regions := by rw [← inv.program, todo, List.append_nil]
    refine ⟨fun core => ?_, inv.joined (Or.inr phase)⟩
    refine Fin.cases ?_ (fun i => ?_) core
    · rw [← all]
      exact calls
    · have ok := inv.workers i
      rw [phase, all] at ok
      exact ok.1
  progress := inv.progress

/-- The event unit before it is allocated. -/
def unused : Shared where
  euPGlobal := false
  workersInLoop := 0
  exitFlag := 0
  workersWfi := 0
  e := { fn := 0, data := 0, argc := 0, nthreads := 0, finiCount := 0 }
  clClint := 0

/-- Up to the first sleep of all workers. -/
def bootSchedule (n : Nat) : List (Label n) :=
  [.master] ++ (List.finRange n).map .worker ++ [.master] ++
    (List.finRange n).flatMap fun i => List.replicate 6 (.worker i)

/-- **Fork and join** for up to 31 compute cores: every run is as `ForkJoin` says and ends. -/
theorem fork_join (few : n + 1 ≤ 31) (valid : ∀ r ∈ regions, r.numThreads ≠ 0) (eu : Shared) :
    (∀ s, (eventUnit n).Reachable (start n regions eu) s → ForkJoin regions s) ∧
      ∃ bound, ∀ schedule s, (eventUnit n).run (start n regions eu) schedule = some s →
        schedule.length ≤ bound := by
  refine ⟨fun s reached => (inv_reachable few valid reached).forkJoin,
    (start n regions eu).rank, fun schedule s ran => ?_⟩
  have bound := (inv_start eu).run_bound few valid schedule ran
  omega

/-- Two cores run a region of two threads and leave. -/
theorem fork_join_pair : ∃ s, (eventUnit 1).Reachable
    (start 1 [{ fn := 7, data := 5, argc := 2, numThreads := 2 }] unused) s ∧ Over s ∧
      ∀ core, s.calls core = [{ fn := 7, data := 5, argc := 2 }] := by
  have ran : ((eventUnit 1).run (start 1 [{ fn := 7, data := 5, argc := 2, numThreads := 2 }] unused)
      (bootSchedule 1 ++ List.replicate 19 .master ++ List.replicate 10 (.worker 0) ++
        List.replicate 6 .master ++ [.worker 0] ++ List.replicate 5 .master ++
        List.replicate 4 (.worker 0))).any
      (fun s => decide (s.master.pc = .done ∧ ∀ i, (s.workers i).pc = .left)) = true := by
    decide
  obtain ⟨s, ran, ended⟩ := (Option.any_eq_true _ _).mp ran
  have ended : Over s := (decide_eq_true_iff (p := s.master.pc = .done ∧ ∀ i, (s.workers i).pc = .left)).mp ended
  have reached := (eventUnit 1).reachable_run _ ran
  have all := (fork_join (by decide) (by simp) unused).1 s reached
  refine ⟨s, reached, ended, fun core => ?_⟩
  rw [(all.exited ended.1).1 core]
  revert core
  decide

/-- With 32 compute cores the mask is empty: `eu_exit` returns and no worker ever wakes. -/
theorem fork_join_stuck : ∃ s, (eventUnit 31).Reachable (start 31 [] unused) s ∧
    s.master.pc = .done ∧ (∀ i, (s.workers i).pc = .wfi) ∧
      ∀ l, (eventUnit 31).step l s = none := by
  have ran : ((eventUnit 31).run (start 31 [] unused) (bootSchedule 31 ++ List.replicate 10 .master)).any
      (fun s => decide (s.master.pc = .done ∧ s.shared.clClint = 0 ∧
        ∀ i, (s.workers i).pc = .wfi)) = true := by
    decide +kernel
  obtain ⟨s, ran, stuck⟩ := (Option.any_eq_true _ _).mp ran
  obtain ⟨done, quiet, asleep⟩ := of_decide_eq_true stuck
  refine ⟨s, (eventUnit 31).reachable_run _ ran, done, asleep, fun l => ?_⟩
  cases l with
  | master => simp [eventUnit, masterStep, done]
  | worker i => simp [eventUnit, euEventLoop, asleep, quiet]

end ForkJoin

end SnitchCluster.Runtime.EventUnit
