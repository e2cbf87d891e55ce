/-
# Runtime.Communicator -- the barrier between the clusters of a communicator

A communicator is the first few clusters of the system together with a counter in
main memory.  `snrt_inter_cluster_barrier` counts the arrivals; the last cluster
resets the counter and wakes the others one after the other, the others sleep until
their interrupt is pending, and clear it before they go on.  Every cluster has one
interrupt for all its communicators, and `snrt_comm_create` itself synchronizes on
the world communicator before the new counter is used.

The clusters run programs of such calls, in any interleaving of their accesses.
`Inv` relates them to the number of rounds each counter has completed.  The point is
that a wake-up on its way, or pending, always belongs to a cluster that still sleeps
in the round it ends (`Inv.owed`, `Inv.pending`), so that no interrupt can reach a
cluster that has gone on to another barrier.
-/
import Mathlib.Data.Fintype.Fin
import SnitchCluster.Theory.Interleaving

namespace SnitchCluster.Runtime.Communicator

open Theory

/-- `snrt_comm_info_t`.  Counters are numbered in the order of their allocation. -/
structure CommInfo where
  barrierPtr : Nat
  size : BitVec 32
  isParticipant : Bool
  deriving DecidableEq, Repr

/-- What `snrt_comm_create` stores in cluster `idx`. -/
def CommInfo.of (idx barrierPtr : Nat) (size : BitVec 32) : CommInfo where
  barrierPtr
  size
  isParticipant := decide (idx < size.toNat)

/-- A call made by every core of a cluster, on the communicator of a number.  The world
communicator is number 0. -/
inductive Call
  | commCreate (size : BitVec 32)
  | barrier (comm : Nat)
  deriving DecidableEq, Repr

namespace Call

/-- The call synchronizes on communicator `k`. -/
def on (k : Nat) : Call → Bool
  | .commCreate _ => k == 0
  | .barrier comm => comm == k

theorem on_unique {call : Call} {k k' : Nat} (here : call.on k) (there : call.on k') : k = k' := by
  cases call with
  | commCreate size => exact (beq_iff_eq.mp here).trans (beq_iff_eq.mp there).symm
  | barrier comm => exact (beq_iff_eq.mp here).symm.trans (beq_iff_eq.mp there)

/-- The size of the communicator the call creates. -/
def creates : Call → Option (BitVec 32)
  | .commCreate size => some size
  | .barrier _ => none

end Call

/-- Where a cluster is in a call. -/
inductive Phase
  | between
  | init
  | add (comm : CommInfo)
  | reset (comm : CommInfo)
  | wake (comm : CommInfo) (i : Nat)
  | wfi (comm : CommInfo)
  | clear (comm : CommInfo)
  | poll (comm : CommInfo)
  deriving DecidableEq, Repr

/-- A cluster: the calls it has returned from, the communicators it knows, and where it
is in its present call. -/
structure Cluster where
  returned : Nat
  comms : List CommInfo
  phase : Phase

structure State (num : BitVec 32) where
  clusters : Fin num.toNat → Cluster
  barrier : Nat → BitVec 32
  mcip : Fin num.toNat → Bool

/-- The end of a call. -/
def Cluster.leave (idx : Nat) (program : List Call) (cl : Cluster) : Cluster where
  returned := cl.returned + 1
  comms := cl.comms ++ ((program[cl.returned]?.bind Call.creates).map
    (CommInfo.of idx cl.comms.length)).toList
  phase := .between

/-- `snrt_comm_world_info`. -/
def commWorld (num : BitVec 32) : CommInfo := ⟨0, num, true⟩

section Step

variable {num : BitVec 32}

/-- The next access of cluster `i`. -/
def step (program : Fin num.toNat → List Call) (i : Fin num.toNat) (s : State num) :
    Option (State num) :=
  let cl := s.clusters i
  let goes (phase : Phase) := Function.update s.clusters i { cl with phase }
  let leaves := Function.update s.clusters i (cl.leave i (program i))
  match cl.phase with
  | .between =>
    match (program i)[cl.returned]? with
    | none => none
    | some (.commCreate _) =>
      some { s with clusters := goes (if i.val = 0 then .init else .add (commWorld num)) }
    | some (.barrier comm) =>
      match cl.comms[comm]? with
      | none => none
      | some comm =>
        some { s with clusters := if comm.isParticipant then goes (.add comm) else leaves }
  | .init =>
    some { s with
      clusters := goes (.add (commWorld num))
      barrier := Function.update s.barrier cl.comms.length 0 }
  | .add comm =>
    let cnt := s.barrier comm.barrierPtr + 1
    some { s with
      clusters := goes (if cnt = comm.size then .reset comm else .wfi comm)
      barrier := Function.update s.barrier comm.barrierPtr cnt }
  | .reset comm =>
    some { s with
      clusters := goes (.wake comm 0)
      barrier := Function.update s.barrier comm.barrierPtr 0 }
  | .wake comm j =>
    if j < comm.size.toNat then
      some { s with
        clusters := goes (.wake comm (j + 1))
        mcip := fun c => s.mcip c || (c.val == j && c != i) }
    else some { s with clusters := leaves }
  | .wfi comm => if s.mcip i then some { s with clusters := goes (.clear comm) } else none
  | .clear comm =>
    some { s with clusters := goes (.poll comm), mcip := Function.update s.mcip i false }
  | .poll _ => if s.mcip i then some s else some { s with clusters := leaves }

/-- The clusters, each running its program. -/
def clusters (program : Fin num.toNat → List Call) : Interleaving (State num) (Fin num.toNat) where
  step := step program

/-- Everyone knows the world communicator; all other counters are yet to be cleared. -/
def start (num : BitVec 32) (memory : Nat → BitVec 32) : State num where
  clusters _ := { returned := 0, comms := [commWorld num], phase := .between }
  barrier := Function.update memory 0 0
  mcip _ := false

end Step

/-! ## What a cluster has done -/

namespace Phase

/-- The communicator of the barrier the cluster is in. -/
def comm? : Phase → Option CommInfo
  | .between | .init => none
  | .add comm | .reset comm | .wake comm _ | .wfi comm | .clear comm | .poll comm => some comm

/-- The cluster sleeps on counter `k`. -/
def sleepsOn (k : Nat) : Phase → Bool
  | .wfi comm => comm.barrierPtr == k
  | _ => false

/-- The cluster has added itself to counter `k`. -/
def arrivedAt (k : Nat) : Phase → Bool
  | .between | .init | .add _ => false
  | .reset comm | .wake comm _ | .wfi comm | .clear comm | .poll comm => comm.barrierPtr == k

def resets (k : Nat) : Phase → Bool
  | .reset comm => comm.barrierPtr == k
  | _ => false

/-- The cluster ends a round of counter `k`. -/
def ends (k : Nat) : Phase → Bool
  | .reset comm | .wake comm _ => comm.barrierPtr == k
  | _ => false

/-- The cluster has yet to wake cluster `i` from its sleep on counter `k`. -/
def owes (k i : Nat) : Phase → Bool
  | .reset comm => comm.barrierPtr == k
  | .wake comm j => comm.barrierPtr == k && j ≤ i
  | _ => false

/-- The cluster is past the initialization of a new counter in its present call. -/
def started : Phase → Bool
  | .between | .init => false
  | _ => true

attribute [local simp] comm? sleepsOn arrivedAt resets ends owes started

variable {phase : Phase} {k : Nat}

theorem sleepsOn.arrivedAt (sleeps : phase.sleepsOn k) :
    phase.arrivedAt k := by
  cases phase <;> simp_all

theorem ends.arrivedAt (here : phase.ends k) : phase.arrivedAt k := by
  cases phase <;> simp_all

theorem ends.not_sleepsOn (here : phase.ends k) (k' : Nat) :
    phase.sleepsOn k' = false := by
  cases phase <;> simp_all

theorem owes.ends {i : Nat} (owes : phase.owes k i) : phase.ends k := by
  cases phase <;> simp_all

theorem resets.owes (resets : phase.resets k) (i : Nat) :
    phase.owes k i := by
  cases phase <;> simp_all

theorem arrivedAt.comm (here : phase.arrivedAt k) :
    ∃ comm, phase.comm? = some comm ∧ comm.barrierPtr = k := by
  cases phase <;> simp_all

theorem arrivedAt.started (here : phase.arrivedAt k) : phase.started := by
  cases phase <;> simp_all

/-- A cluster that has arrived at a counter has arrived at no other. -/
theorem arrivedAt.only {phase : Phase} {comm : CommInfo} (now : phase.comm? = some comm)
    (here : phase.arrivedAt comm.barrierPtr) (k : Nat) :
    phase.arrivedAt k = (comm.barrierPtr == k) := by
  cases phase with
  | between | init | add _ => cases here
  | reset _ | wake _ _ | wfi _ | clear _ | poll _ => cases now; rfl

theorem ends.only {phase : Phase} {comm : CommInfo} (now : phase.comm? = some comm)
    (here : phase.ends comm.barrierPtr) (k : Nat) : phase.ends k = (comm.barrierPtr == k) := by
  cases phase with
  | reset _ | wake _ _ => cases now; rfl
  | between | init | add _ | wfi _ | clear _ | poll _ => cases here

end Phase

namespace Cluster

/-- The barriers on communicator `k` the cluster has returned from. -/
def left (program : List Call) (k : Nat) (cl : Cluster) : Nat :=
  (program.take cl.returned).countP (Call.on k)

/-- The barriers on communicator `k` at which the cluster has arrived. -/
def arrivals (program : List Call) (k : Nat) (cl : Cluster) : Nat :=
  cl.left program k + if cl.phase.arrivedAt k then 1 else 0

/-- The counters that are initialized once the cluster with the initializing core has
come this far. -/
def initialized (program : List Call) (cl : Cluster) : Nat :=
  1 + ((program.take (cl.returned + if cl.phase.started then 1 else 0)).filterMap
    Call.creates).length

/-- What the data of a cluster say about its program. -/
structure Wf (num : BitVec 32) (idx : Nat) (program : List Call) (cl : Cluster) : Prop where
  table : cl.comms =
    (num :: (program.take cl.returned).filterMap Call.creates).mapIdx (CommInfo.of idx)
  current : ∀ comm, cl.phase.comm? = some comm → comm.isParticipant ∧
    cl.comms[comm.barrierPtr]? = some comm ∧
      ∃ call, program[cl.returned]? = some call ∧ call.on comm.barrierPtr
  init : cl.phase = .init → idx = 0 ∧ ∃ size, program[cl.returned]? = some (.commCreate size)

end Cluster

/-- The sizes of the communicators, by their numbers. -/
def sizes (num : BitVec 32) (world : List Call) : List (BitVec 32) :=
  num :: world.filterMap Call.creates

/-- Cluster `i` is in communicator `k`. -/
def Participates (sizes : List (BitVec 32)) (k i : Nat) : Prop :=
  ∃ size, sizes[k]? = some size ∧ i < size.toNat

/-- The clusters make the calls that all of them take part in, the barriers of the world
communicator and the creations, in one order. -/
def Collective {num : BitVec 32} (program : Fin num.toNat → List Call) (world : List Call) : Prop :=
  ∀ i, (program i).filter (Call.on 0) = world

/-! ## The invariant -/

section Inv

variable {num : BitVec 32} (program : Fin num.toNat → List Call) (world : List Call)

/-- Cluster `i` sleeps in round `r` of counter `k`. -/
def WaitsIn (k r : Nat) (i : Fin num.toNat) (cl : Cluster) : Prop :=
  cl.phase.sleepsOn k ∧ cl.left (program i) k = r

instance (k r : Nat) (i : Fin num.toNat) : DecidablePred (WaitsIn program k r i) :=
  fun _ => instDecidableAnd

/-- Cluster `i` sleeps in round `r` of counter `k`, which is over, and has not been woken. -/
def Owed (s : State num) (k r : Nat) (i : Fin num.toNat) : Prop :=
  (s.clusters i).phase.sleepsOn k ∧ (s.clusters i).left (program i) k + 1 = r ∧ s.mcip i = false

/-- Counter `k` has been initialized. -/
def Ready (s : State num) (k : Nat) : Prop :=
  ∀ i, i.val = 0 → k < (s.clusters i).initialized (program i)

/-- What holds between two steps, counter `k` having completed `round k` rounds. -/
structure Inv (round : Nat → Nat) (s : State num) : Prop where
  wf : ∀ i, (s.clusters i).Wf num i (program i)
  rounds : ∀ (i : Fin num.toNat) (k : Nat), Participates (sizes num world) k i →
    (s.clusters i).left (program i) k = round k ∨
      (s.clusters i).phase.arrivedAt k ∧ (s.clusters i).left (program i) k + 1 = round k
  waits : ∀ i k, (s.clusters i).phase.arrivedAt k → (s.clusters i).left (program i) k = round k →
    (s.clusters i).phase.sleepsOn k
  unique : ∀ i j k, (s.clusters i).phase.ends k → (s.clusters j).phase.ends k → i = j
  /-- Wake-ups on their way go to sleepers. -/
  owed : ∀ (i j : Fin num.toNat) (k : Nat), i ≠ j → (s.clusters j).phase.owes k i → Participates (sizes num world) k i →
    Owed program s k (round k) i
  /-- So do the pending ones, unless they are about to be cleared. -/
  pending : ∀ i, s.mcip i → (∃ comm, (s.clusters i).phase = .wfi comm ∧
      (s.clusters i).left (program i) comm.barrierPtr + 1 = round comm.barrierPtr) ∨
    ∃ comm, (s.clusters i).phase = .clear comm
  counted : ∀ k, Ready program s k → (∀ i, (s.clusters i).phase.resets k = false) →
    s.barrier k = BitVec.ofNat 32 (population (WaitsIn program k (round k)) s.clusters)
  full : ∀ i comm, (s.clusters i).phase = .reset comm → s.barrier comm.barrierPtr = comm.size

end Inv

/-! ## The communicators a cluster knows -/

section Known

variable {num : BitVec 32}

theorem filter_take {α : Type} (p : α → Bool) (l : List α) (n : Nat) :
    (l.take n).filter p = (l.filter p).take ((l.take n).countP p) := by
  rw [List.countP_eq_length_filter]
  exact List.prefix_iff_eq_take.mp ((List.take_prefix n l).filter p)

theorem filterMap_creates (l : List Call) :
    (l.filter (Call.on 0)).filterMap Call.creates = l.filterMap Call.creates := by
  induction l with
  | nil => rfl
  | cons call rest ih =>
    cases call with
    | commCreate size => simpa [Call.on, Call.creates] using ih
    | barrier comm =>
      by_cases world : comm = 0 <;>
        simpa [Call.on, Call.creates, world, List.filterMap_cons] using ih

/-- What has been created follows from the number of calls made by all. -/
theorem creates_take {program world : List Call} (agree : program.filter (Call.on 0) = world)
    (n : Nat) : (program.take n).filterMap Call.creates =
      (world.take ((program.take n).countP (Call.on 0))).filterMap Call.creates := by
  rw [← filterMap_creates, filter_take, agree]

theorem creates_prefix {program world : List Call} (agree : program.filter (Call.on 0) = world)
    (n : Nat) : num :: (program.take n).filterMap Call.creates <+: sizes num world := by
  rw [creates_take agree n]
  exact List.cons_prefix_cons.mpr ⟨rfl, (List.take_prefix _ world).filterMap Call.creates⟩

theorem creates_length_mono (world : List Call) {m n : Nat} (le : m ≤ n) :
    ((world.take m).filterMap Call.creates).length ≤ ((world.take n).filterMap Call.creates).length :=
  ((List.take_prefix_take_left le).filterMap Call.creates).length_le

namespace Cluster

variable {idx : Nat} {program world : List Call} {cl : Cluster}

theorem Wf.known (wf : cl.Wf num idx program) (agree : program.filter (Call.on 0) = world)
    {k : Nat} {comm : CommInfo} (known : cl.comms[k]? = some comm) :
    (sizes num world)[k]? = some comm.size ∧ comm = .of idx k comm.size := by
  rw [wf.table, List.getElem?_mapIdx, Option.map_eq_some_iff] at known
  obtain ⟨size, there, rfl⟩ := known
  have upto : num :: (program.take cl.returned).filterMap Call.creates <+: sizes num world :=
    creates_prefix agree cl.returned
  obtain ⟨rest, whole⟩ := upto
  refine ⟨?_, rfl⟩
  rw [← whole, List.getElem?_append_left (List.getElem?_eq_some_iff.mp there).1]
  exact there

/-- The barrier a cluster is in is one of a communicator it takes part in. -/
theorem Wf.participates (wf : cl.Wf num idx program) (agree : program.filter (Call.on 0) = world)
    {comm : CommInfo} (here : cl.phase.comm? = some comm) :
    (sizes num world)[comm.barrierPtr]? = some comm.size ∧ idx < comm.size.toNat := by
  obtain ⟨joins, known, -⟩ := wf.current comm here
  obtain ⟨size, same⟩ := wf.known agree known
  refine ⟨size, ?_⟩
  rw [same] at joins
  simpa [CommInfo.of] using joins

theorem Wf.arrived (wf : cl.Wf num idx program) (agree : program.filter (Call.on 0) = world)
    {k : Nat} (here : cl.phase.arrivedAt k) : Participates (sizes num world) k idx := by
  obtain ⟨comm, now, rfl⟩ := Phase.arrivedAt.comm here
  exact ⟨comm.size, wf.participates agree now⟩

/-- The present call is over. -/
theorem left_leave (k : Nat) :
    (cl.leave idx program).left program k =
      cl.left program k + ((program[cl.returned]?.any (Call.on k)).toNat) := by
  unfold left leave
  simp only [List.take_add_one, List.countP_append]
  cases program[cl.returned]? with
  | none => rfl
  | some call => cases h : call.on k <;> simp [h]

/-- The barrier a cluster is in is the one it leaves next. -/
theorem Wf.left_leave (wf : cl.Wf num idx program) {comm : CommInfo}
    (here : cl.phase.comm? = some comm) :
    (cl.leave idx program).left program comm.barrierPtr = cl.left program comm.barrierPtr + 1 := by
  obtain ⟨-, -, call, now, on⟩ := wf.current comm here
  rw [Cluster.left_leave, now]
  simp [on]

end Cluster

end Known

/-! ## Steps -/

section Steps

variable {num : BitVec 32} {program : Fin num.toNat → List Call} {world : List Call}
  {round : Nat → Nat} {s : State num}

theorem Inv.left_le (inv : Inv program world round s) (i : Fin num.toNat) {k : Nat}
    (joins : Participates (sizes num world) k i) :
    (s.clusters i).left (program i) k ≤ round k ∧ round k ≤ (s.clusters i).arrivals (program i) k := by
  unfold Cluster.arrivals
  rcases inv.rounds i k joins with here | ⟨arrived, here⟩
  · omega
  · rw [if_pos arrived]
    omega

theorem participates_world (world : List Call) (i : Fin num.toNat) :
    Participates (sizes num world) 0 i := ⟨num, rfl, i.isLt⟩

/-- Whatever a cluster knows, its counter is initialized: the creation synchronizes. -/
theorem Inv.ready (inv : Inv program world round s) (agree : Collective program world)
    {i : Fin num.toNat} {k : Nat} (known : k < (s.clusters i).comms.length) : Ready program s k := by
  intro z zero
  have mine := (inv.left_le i (participates_world world i)).1
  have theirs := (inv.left_le z (participates_world world z)).2
  have length : (s.clusters i).comms.length =
      1 + ((world.take ((s.clusters i).left (program i) 0)).filterMap Call.creates).length := by
    rw [(inv.wf i).table, List.length_mapIdx, List.length_cons, creates_take (agree i)]
    exact Nat.add_comm _ 1
  have upto : (s.clusters z).arrivals (program z) 0 ≤ ((program z).take ((s.clusters z).returned +
      if (s.clusters z).phase.started then 1 else 0)).countP (Call.on 0) := by
    unfold Cluster.arrivals Cluster.left
    by_cases arrived : (s.clusters z).phase.arrivedAt 0
    · obtain ⟨comm, now, here⟩ := Phase.arrivedAt.comm arrived
      obtain ⟨-, -, call, present, on⟩ := (inv.wf z).current comm now
      rw [here] at on
      rw [if_pos arrived, if_pos (Phase.arrivedAt.started arrived), List.take_add_one, present,
        List.countP_append]
      simp [on]
    · rw [if_neg arrived, Nat.add_zero]
      exact ((List.take_prefix_take_left (Nat.le_add_right _ _)).sublist).countP_le
  have created := creates_length_mono world (mine.trans (theirs.trans upto))
  rw [← creates_take (agree z)] at created
  unfold Cluster.initialized
  omega

/-- A cluster in a barrier knows the communicator. -/
theorem Cluster.Wf.comm_lt {idx : Nat} {calls : List Call} {cl : Cluster}
    (wf : cl.Wf num idx calls) {comm : CommInfo} (here : cl.phase.comm? = some comm) :
    comm.barrierPtr < cl.comms.length :=
  (List.getElem?_eq_some_iff.mp (wf.current comm here).2.1).1

theorem Cluster.Wf.same {idx : Nat} {calls : List Call} {cl : Cluster} (wf : cl.Wf num idx calls)
    {phase : Phase} (kept : cl.phase.comm? = phase.comm?) (going : phase ≠ .init) :
    { cl with phase }.Wf num idx calls where
  table := wf.table
  current comm now := wf.current comm (kept.trans now)
  init idle := absurd idle going

/-- A cluster moves that does not end a round, and that nobody is about to wake. -/
theorem Inv.moves (inv : Inv program world round s) {i : Fin num.toNat} (cl : Cluster) (b : Bool)
    (barrier : Nat → BitVec 32) (wf : cl.Wf num i (program i))
    (rounds : ∀ k, Participates (sizes num world) k i → cl.left (program i) k = round k ∨
      cl.phase.arrivedAt k ∧ cl.left (program i) k + 1 = round k)
    (waits : ∀ k, cl.phase.arrivedAt k → cl.left (program i) k = round k → cl.phase.sleepsOn k)
    (after : ∀ k, cl.phase.ends k = false)
    (unowed : ∀ j k, i ≠ j → (s.clusters j).phase.owes k i → Participates (sizes num world) k i →
      False)
    (pending : b = true → (∃ comm, cl.phase = .wfi comm ∧
      cl.left (program i) comm.barrierPtr + 1 = round comm.barrierPtr) ∨
        ∃ comm, cl.phase = .clear comm)
    (counted : ∀ k, Ready program { s with clusters := Function.update s.clusters i cl } k →
      (∀ j, j ≠ i → (s.clusters j).phase.resets k = false) → barrier k =
        BitVec.ofNat 32 (population (WaitsIn program k (round k)) (Function.update s.clusters i cl)))
    (full : ∀ j comm, j ≠ i → (s.clusters j).phase = .reset comm →
      barrier comm.barrierPtr = s.barrier comm.barrierPtr) :
    Inv program world round {
      clusters := Function.update s.clusters i cl
      barrier
      mcip := Function.update s.mcip i b } := by
  have idle : ∀ j k, (Function.update s.clusters i cl j).phase.ends k →
      j ≠ i ∧ (s.clusters j).phase.ends k := by
    intro j k ends
    by_cases here : j = i
    · rw [here, Function.update_self, after k] at ends
      cases ends
    · rw [Function.update_of_ne here] at ends
      exact ⟨here, ends⟩
  exact {
    wf := forall_update (fun (j : Fin num.toNat) (cl : Cluster) => cl.Wf num j (program j)) wf
      fun j _ => inv.wf j
    rounds := forall_update (fun (j : Fin num.toNat) (cl : Cluster) =>
      ∀ k, Participates (sizes num world) k j → cl.left (program j) k = round k ∨
        cl.phase.arrivedAt k ∧ cl.left (program j) k + 1 = round k) rounds fun j _ => inv.rounds j
    waits := forall_update (fun (j : Fin num.toNat) (cl : Cluster) => ∀ k, cl.phase.arrivedAt k →
      cl.left (program j) k = round k → cl.phase.sleepsOn k) waits fun j _ => inv.waits j
    unique := fun j j' k ends ends' => inv.unique j j' k (idle j k ends).2 (idle j' k ends').2
    owed := by
      intro j j' k apart owes joins
      have here := (idle j' k (Phase.owes.ends owes)).1
      have owes' : (s.clusters j').phase.owes k j := by
        simpa [Function.update_of_ne here] using owes
      by_cases me : j = i
      · subst me
        exact (unowed j' k apart owes' joins).elim
      · simpa [Owed, Function.update_of_ne me] using inv.owed j j' k apart owes' joins
    pending := by
      intro j
      by_cases me : j = i
      · subst me
        simpa using pending
      · simpa [Function.update_of_ne me] using inv.pending j
    counted := by
      intro k ready quiet
      refine counted k ready fun j me => ?_
      simpa [Function.update_of_ne me] using quiet j
    full := by
      intro j comm now
      have ends : (Function.update s.clusters i cl j).phase.ends comm.barrierPtr := by
        rw [show (Function.update s.clusters i cl j).phase = _ from now]
        simp [Phase.ends]
      have me := (idle j _ ends).1
      have before : (s.clusters j).phase = .reset comm := by
        simpa [Function.update_of_ne me] using now
      exact (full j comm me before).trans (inv.full j comm before) }

/-- A cluster that counts nowhere, before and after, moves on between its accesses of counters. -/
theorem Inv.quiet (inv : Inv program world round s) {i : Fin num.toNat} (cl : Cluster) (b : Bool)
    (wf : cl.Wf num i (program i))
    (rounds : ∀ k, Participates (sizes num world) k i → cl.left (program i) k = round k ∨
      cl.phase.arrivedAt k ∧ cl.left (program i) k + 1 = round k)
    (counted : ∀ k, ¬WaitsIn program k (round k) i (s.clusters i))
    (waits : ∀ k, cl.phase.arrivedAt k → cl.left (program i) k ≠ round k)
    (before : ∀ k, (s.clusters i).phase.resets k = false) (after : ∀ k, cl.phase.ends k = false)
    (unowed : ∀ j k, i ≠ j → (s.clusters j).phase.owes k i → Participates (sizes num world) k i →
      False)
    (pending : b = true → (∃ comm, cl.phase = .wfi comm ∧
      cl.left (program i) comm.barrierPtr + 1 = round comm.barrierPtr) ∨
        ∃ comm, cl.phase = .clear comm)
    (initialized : i.val = 0 →
      cl.initialized (program i) = (s.clusters i).initialized (program i)) :
    Inv program world round { s with
      clusters := Function.update s.clusters i cl, mcip := Function.update s.mcip i b } := by
  refine inv.moves cl b s.barrier wf rounds (fun k arrived left => absurd left (waits k arrived)) after unowed
    pending (fun k ready quiet => ?_) fun _ _ _ _ => rfl
  have ready' : Ready program s k := by
    intro z zero
    have here := ready z zero
    by_cases me : z = i
    · subst me
      simpa [initialized zero] using here
    · simpa [Function.update_of_ne me] using here
  have quiet' : ∀ j, (s.clusters j).phase.resets k = false := by
    intro j
    by_cases me : j = i
    · rw [me]
      exact before k
    · exact quiet j me
  have moved := population_update (p := WaitsIn program k (round k)) s.clusters i cl
  have still : ¬WaitsIn program k (round k) i cl := fun here =>
    waits k (Phase.sleepsOn.arrivedAt here.1) here.2
  rw [if_neg (counted k), if_neg still] at moved
  exact (inv.counted k ready' quiet').trans (congrArg _ moved.symm)

/-- Nobody is about to wake a cluster that does not sleep. -/
theorem Inv.unowed (inv : Inv program world round s) {i : Fin num.toNat}
    (awake : ∀ k, (s.clusters i).phase.sleepsOn k = false) (j : Fin num.toNat) (k : Nat)
    (apart : i ≠ j) (owes : (s.clusters j).phase.owes k i)
    (joins : Participates (sizes num world) k i) : False := by
  have sleeps := (inv.owed i j k apart owes joins).1
  rw [awake k] at sleeps
  cases sleeps

/-- No interrupt is pending for a cluster that neither sleeps nor clears one. -/
theorem Inv.not_pending (inv : Inv program world round s) {i : Fin num.toNat}
    (awake : ∀ comm, (s.clusters i).phase ≠ .wfi comm)
    (clean : ∀ comm, (s.clusters i).phase ≠ .clear comm) : s.mcip i = false := by
  rw [← Bool.not_eq_true]
  intro here
  rcases inv.pending i here with ⟨comm, now, -⟩ | ⟨comm, now⟩
  · exact awake comm now
  · exact clean comm now

/-- A cluster that has not arrived is in the round that is under way. -/
theorem Inv.left_eq (inv : Inv program world round s) {i : Fin num.toNat} {k : Nat}
    (joins : Participates (sizes num world) k i) (away : (s.clusters i).phase.arrivedAt k = false) :
    (s.clusters i).left (program i) k = round k := by
  rcases inv.rounds i k joins with here | ⟨arrived, -⟩
  · exact here
  · rw [away] at arrived
    cases arrived

/-- A cluster that has arrived and does not sleep knows the round is over. -/
theorem Inv.left_succ (inv : Inv program world round s) (agree : Collective program world)
    {i : Fin num.toNat} {k : Nat} (arrived : (s.clusters i).phase.arrivedAt k)
    (awake : (s.clusters i).phase.sleepsOn k = false) :
    (s.clusters i).left (program i) k + 1 = round k := by
  rcases inv.rounds i k ((inv.wf i).arrived (agree i) arrived) with here | ⟨-, here⟩
  · rw [inv.waits i k arrived here] at awake
    cases awake
  · exact here

/-- Where a cluster adds itself to the counter, it counts as many as sleep there. -/
theorem Inv.adds (inv : Inv program world round s) (agree : Collective program world)
    {i : Fin num.toNat} {comm : CommInfo} (now : (s.clusters i).phase = .add comm) :
    (sizes num world)[comm.barrierPtr]? = some comm.size ∧ i.val < comm.size.toNat ∧
      (∀ j, (s.clusters j).phase.resets comm.barrierPtr = false) ∧
      s.barrier comm.barrierPtr = BitVec.ofNat 32
        (population (WaitsIn program comm.barrierPtr (round comm.barrierPtr)) s.clusters) ∧
      population (WaitsIn program comm.barrierPtr (round comm.barrierPtr)) s.clusters <
        min num.toNat comm.size.toNat := by
  have here : (s.clusters i).phase.comm? = some comm := by rw [now]; rfl
  obtain ⟨size, inside⟩ := (inv.wf i).participates (agree i) here
  have awake : ∀ k, (s.clusters i).phase.sleepsOn k = false := fun k => by rw [now]; rfl
  have quiet : ∀ j, (s.clusters j).phase.resets comm.barrierPtr = false := by
    intro j
    rw [← Bool.not_eq_true]
    intro resets
    have apart : i ≠ j := by
      rintro rfl
      rw [now] at resets
      cases resets
    exact inv.unowed awake j _ apart (Phase.resets.owes resets i) ⟨comm.size, size, inside⟩
  refine ⟨size, inside, quiet, inv.counted _ (inv.ready agree ((inv.wf i).comm_lt here)) quiet, ?_⟩
  have out : ¬WaitsIn program comm.barrierPtr (round comm.barrierPtr) i (s.clusters i) := by
    rintro ⟨sleeps, -⟩
    rw [awake] at sleeps
    cases sleeps
  have fewer := population_lt_among (fun j : Fin num.toNat => j.val < comm.size.toNat) inside out
    fun j waits => by
      obtain ⟨size', there, joins⟩ :=
        (inv.wf j).arrived (agree j) (Phase.sleepsOn.arrivedAt waits.1)
      rw [size] at there
      cases there
      exact joins
  rwa [Fin.card_filter_val_lt] at fewer

/-- A cluster that is not the last to arrive goes to sleep. -/
theorem Inv.sleeps (inv : Inv program world round s) (agree : Collective program world)
    {i : Fin num.toNat} {comm : CommInfo} (now : (s.clusters i).phase = .add comm) :
    Inv program world round { s with
      clusters := Function.update s.clusters i { s.clusters i with phase := .wfi comm }
      barrier := Function.update s.barrier comm.barrierPtr (s.barrier comm.barrierPtr + 1) } := by
  obtain ⟨size, inside, quiet, count, -⟩ := inv.adds agree now
  have here : (s.clusters i).phase.comm? = some comm := by rw [now]; rfl
  have away : ∀ k, (s.clusters i).phase.arrivedAt k = false := fun k => by rw [now]; rfl
  have awake : ∀ k, (s.clusters i).phase.sleepsOn k = false := fun k => by rw [now]; rfl
  have out : ∀ k, ¬WaitsIn program k (round k) i (s.clusters i) := by
    rintro k ⟨sleeps, -⟩
    rw [awake] at sleeps
    cases sleeps
  have left := inv.left_eq ⟨comm.size, size, inside⟩ (away comm.barrierPtr)
  have moved := inv.moves (i := i) { s.clusters i with phase := .wfi comm } (s.mcip i)
    (Function.update s.barrier comm.barrierPtr (s.barrier comm.barrierPtr + 1)) ?_ ?_ ?_
    (fun _ => rfl) (inv.unowed awake) ?_ ?_ ?_
  · rwa [Function.update_eq_self] at moved
  · exact (inv.wf i).same here (by simp)
  · exact fun k joins => Or.inl (inv.left_eq joins (away k))
  · exact fun k arrived _ => arrived
  · intro pending
    rw [inv.not_pending (fun _ => by simp [now]) fun _ => by simp [now]] at pending
    cases pending
  · intro k ready others
    have moved := population_update (p := WaitsIn program k (round k)) s.clusters i
      { s.clusters i with phase := .wfi comm }
    rw [if_neg (out k)] at moved
    by_cases same : k = comm.barrierPtr
    · subst same
      have asleep : WaitsIn program comm.barrierPtr (round comm.barrierPtr) i
          { s.clusters i with phase := .wfi comm } := ⟨by simp [Phase.sleepsOn], left⟩
      rw [if_pos asleep] at moved
      rw [Nat.add_zero] at moved
      rw [Function.update_self, count, moved, BitVec.ofNat_add]
      rfl
    · have still : ¬WaitsIn program k (round k) i { s.clusters i with phase := .wfi comm } :=
        fun sleeps => same (Eq.symm (by simpa [Phase.sleepsOn] using sleeps.1))
      rw [if_neg still] at moved
      have ready' : Ready program s k := fun z zero => by
        have later := ready z zero
        by_cases me : z = i
        · subst me
          refine Nat.lt_of_lt_of_le later ?_
          simp [Cluster.initialized, now, Phase.started]
        · simpa [Function.update_of_ne me] using later
      have quiet' : ∀ j, (s.clusters j).phase.resets k = false := by
        intro j
        by_cases me : j = i
        · rw [me, now]
          rfl
        · exact others j me
      rw [Function.update_of_ne same, inv.counted k ready' quiet']
      exact congrArg _ moved.symm
  · intro j comm' me resets
    refine Function.update_of_ne (fun same => ?_) _ _
    have never := quiet j
    rw [resets, ← same] at never
    simp [Phase.resets] at never

/-- The last cluster to arrive ends the round: everyone else sleeps. -/
theorem Inv.last (inv : Inv program world round s) (agree : Collective program world)
    {i : Fin num.toNat} {comm : CommInfo} (now : (s.clusters i).phase = .add comm)
    (full : s.barrier comm.barrierPtr + 1 = comm.size) :
    Inv program world
      (Function.update round comm.barrierPtr (round comm.barrierPtr + 1)) { s with
        clusters := Function.update s.clusters i { s.clusters i with phase := .reset comm }
        barrier := Function.update s.barrier comm.barrierPtr (s.barrier comm.barrierPtr + 1) } := by
  obtain ⟨size, inside, quiet, count, below⟩ := inv.adds agree now
  have here : (s.clusters i).phase.comm? = some comm := by rw [now]; rfl
  have away : ∀ k, (s.clusters i).phase.arrivedAt k = false := fun k => by rw [now]; rfl
  have awake : ∀ k, (s.clusters i).phase.sleepsOn k = false := fun k => by rw [now]; rfl
  have left := inv.left_eq ⟨comm.size, size, inside⟩ (away comm.barrierPtr)
  have out : ∀ k, ¬WaitsIn program k (round k) i (s.clusters i) := by
    rintro k ⟨sleeps, -⟩
    rw [awake] at sleeps
    cases sleeps
  have member : ∀ j : Fin num.toNat, Participates (sizes num world) comm.barrierPtr j →
      j.val < comm.size.toNat := by
    rintro j ⟨size', there, joins⟩
    rw [size] at there
    cases there
    exact joins
  -- the count says that all other participants sleep in this round
  have others : ∀ j : Fin num.toNat, Participates (sizes num world) comm.barrierPtr j → j ≠ i →
      WaitsIn program comm.barrierPtr (round comm.barrierPtr) j (s.clusters j) := by
    intro j joins apart
    refine population_others (fun j : Fin num.toNat => j.val < comm.size.toNat) inside (out _)
      (fun j waits => member j ((inv.wf j).arrived (agree j) (Phase.sleepsOn.arrivedAt waits.1)))
      ?_ j (member j joins) apart
    rw [count, counter_eq_iff (by omega)] at full
    rw [Fin.card_filter_val_lt, full]
    exact Nat.min_le_right _ _
  have idle : ∀ j, j ≠ i → (s.clusters j).phase.arrivedAt comm.barrierPtr →
      WaitsIn program comm.barrierPtr (round comm.barrierPtr) j (s.clusters j) :=
    fun j apart arrived => others j ((inv.wf j).arrived (agree j) arrived) apart
  have noEnd : ∀ j, j ≠ i → (s.clusters j).phase.ends comm.barrierPtr = false := by
    intro j apart
    rw [← Bool.not_eq_true]
    intro ends
    have sleeps := (idle j apart (Phase.ends.arrivedAt ends)).1
    rw [Phase.ends.not_sleepsOn ends] at sleeps
    cases sleeps
  have ends_iff : ∀ j k, (Function.update s.clusters i { s.clusters i with phase := .reset comm }
      j).phase.ends k → (j = i ∧ comm.barrierPtr = k) ∨ (j ≠ i ∧ k ≠ comm.barrierPtr ∧
        (s.clusters j).phase.ends k) := by
    intro j k ends
    by_cases me : j = i
    · subst me
      exact Or.inl ⟨rfl, by simpa [Phase.ends] using ends⟩
    · rw [Function.update_of_ne me] at ends
      refine Or.inr ⟨me, fun same => ?_, ends⟩
      rw [same, noEnd j me] at ends
      cases ends
  exact {
    wf := by
      refine forall_update (fun (j : Fin num.toNat) (cl : Cluster) => cl.Wf num j (program j)) ?_
        fun j _ => inv.wf j
      exact (inv.wf i).same here (by simp)
    rounds := by
      refine forall_update (fun (j : Fin num.toNat) (cl : Cluster) =>
        ∀ k, Participates (sizes num world) k j → cl.left (program j) k = Function.update round
          comm.barrierPtr (round comm.barrierPtr + 1) k ∨ cl.phase.arrivedAt k ∧
            cl.left (program j) k + 1 = Function.update round comm.barrierPtr
              (round comm.barrierPtr + 1) k) ?_ fun j me => ?_
      · intro k joins
        by_cases same : k = comm.barrierPtr
        · subst same
          exact Or.inr ⟨by simp [Phase.arrivedAt], by
            rw [Function.update_self]
            exact congrArg (· + 1) left⟩
        · rw [Function.update_of_ne same]
          exact Or.inl (inv.left_eq joins (away k))
      · intro k joins
        by_cases same : k = comm.barrierPtr
        · subst same
          obtain ⟨sleeps, still⟩ := others j joins me
          exact Or.inr ⟨Phase.sleepsOn.arrivedAt sleeps, by rw [Function.update_self, still]⟩
        · rw [Function.update_of_ne same]
          exact inv.rounds j k joins
    waits := by
      refine forall_update (fun (j : Fin num.toNat) (cl : Cluster) => ∀ k, cl.phase.arrivedAt k →
        cl.left (program j) k = Function.update round comm.barrierPtr
          (round comm.barrierPtr + 1) k → cl.phase.sleepsOn k) ?_ fun j me => ?_
      · intro k arrived still
        have same : comm.barrierPtr = k := by simpa [Phase.arrivedAt] using arrived
        subst same
        rw [Function.update_self] at still
        exact absurd (still.symm.trans left) (Nat.succ_ne_self _)
      · intro k arrived still
        by_cases same : k = comm.barrierPtr
        · subst same
          exact (idle j me arrived).1
        · rw [Function.update_of_ne same] at still
          exact inv.waits j k arrived still
    unique := by
      intro j j' k ends ends'
      rcases ends_iff j k ends with ⟨rfl, rfl⟩ | ⟨-, other, before⟩
      · rcases ends_iff j' _ ends' with ⟨rfl, -⟩ | ⟨-, other, -⟩
        · rfl
        · exact absurd rfl other
      · rcases ends_iff j' k ends' with ⟨-, rfl⟩ | ⟨-, -, before'⟩
        · exact absurd rfl other
        · exact inv.unique j j' k before before'
    owed := by
      intro j j' k apart owes joins
      rcases ends_iff j' k (Phase.owes.ends owes) with ⟨rfl, rfl⟩ | ⟨me, other, -⟩
      · obtain ⟨sleeps, still⟩ := others j joins apart
        refine ⟨?_, ?_, ?_⟩
        · simpa [Function.update_of_ne apart] using sleeps
        · simp [Function.update_of_ne apart, still]
        · rw [← Bool.not_eq_true]
          intro pending
          rcases inv.pending j pending with ⟨comm', asleep, ended⟩ | ⟨comm', asleep⟩
          · rw [asleep] at sleeps
            have same : comm'.barrierPtr = comm.barrierPtr := by simpa [Phase.sleepsOn] using sleeps
            rw [same] at ended
            omega
          · rw [asleep] at sleeps
            cases sleeps
      · simp only [Function.update_of_ne me] at owes
        have before := inv.owed j j' k apart owes joins
        have other' : j ≠ i := by
          rintro rfl
          exact inv.unowed awake j' k apart owes joins
        simpa [Owed, Function.update_of_ne other', Function.update_of_ne other] using before
    pending := by
      intro j pending
      by_cases me : j = i
      · subst me
        rw [inv.not_pending (fun _ => by simp [now]) fun _ => by simp [now]] at pending
        cases pending
      · simp only [Function.update_of_ne me]
        refine (inv.pending j pending).imp_left ?_
        rintro ⟨comm', asleep, ended⟩
        refine ⟨comm', asleep, ?_⟩
        rw [Function.update_of_ne fun same => ?_]
        · exact ended
        · have arrived : (s.clusters j).phase.arrivedAt comm.barrierPtr := by
            simp [asleep, Phase.arrivedAt, same]
          have still := (idle j me arrived).2
          rw [same] at ended
          omega
    counted := by
      intro k ready silent
      have other : k ≠ comm.barrierPtr := by
        rintro rfl
        have me := silent i
        simp [Phase.resets] at me
      have ready' : Ready program s k := fun z zero => by
        have later := ready z zero
        by_cases me : z = i
        · subst me
          refine Nat.lt_of_lt_of_le later ?_
          simp [Cluster.initialized, now, Phase.started]
        · simpa [Function.update_of_ne me] using later
      have quiet' : ∀ j, (s.clusters j).phase.resets k = false := by
        intro j
        by_cases me : j = i
        · rw [me, now]
          rfl
        · simpa [Function.update_of_ne me] using silent j
      have moved := population_update (p := WaitsIn program k (round k)) s.clusters i
        { s.clusters i with phase := .reset comm }
      rw [if_neg (out k), if_neg fun waits => by cases waits.1] at moved
      simp only [Function.update_of_ne other]
      rw [inv.counted k ready' quiet']
      exact congrArg _ moved.symm
    full := by
      intro j comm' resets
      by_cases me : j = i
      · subst me
        simp only [Function.update_self, Phase.reset.injEq] at resets
        subst resets
        simp only [Function.update_self]
        exact full
      · simp only [Function.update_of_ne me] at resets
        have other : comm'.barrierPtr ≠ comm.barrierPtr := by
          intro same
          have never := noEnd j me
          rw [resets, ← same] at never
          simp [Phase.ends] at never
        simp only [Function.update_of_ne other]
        exact inv.full j comm' resets }

/-- The cluster that ends a round goes on doing so: it resets the counter, or wakes another. -/
theorem Inv.turns (inv : Inv program world round s)
    {i : Fin num.toNat} {comm : CommInfo} {phase : Phase} {barrier : Nat → BitVec 32}
    {mcip : Fin num.toNat → Bool} (now : (s.clusters i).phase.comm? = some comm)
    (later : phase.comm? = some comm) (ends : (s.clusters i).phase.ends comm.barrierPtr)
    (still : phase.ends comm.barrierPtr) (noReset : ∀ k, phase.resets k = false)
    (owed : ∀ j, phase.owes comm.barrierPtr j → (s.clusters i).phase.owes comm.barrierPtr j)
    (awake : ∀ j, mcip j → s.mcip j ∨ j ≠ i ∧ (s.clusters i).phase.owes comm.barrierPtr j ∧
      phase.owes comm.barrierPtr j = false ∧ Participates (sizes num world) comm.barrierPtr j)
    (counted : ∀ k, Ready program s k → (∀ j, j ≠ i → (s.clusters j).phase.resets k = false) →
      barrier k = BitVec.ofNat 32 (population (WaitsIn program k (round k)) s.clusters))
    (full : ∀ k, k ≠ comm.barrierPtr → barrier k = s.barrier k) :
    Inv program world round {
      clusters := Function.update s.clusters i { s.clusters i with phase }
      barrier
      mcip } := by
  have same : ∀ j k, (Function.update s.clusters i { s.clusters i with phase } j).phase.ends k =
      (s.clusters j).phase.ends k := by
    intro j k
    by_cases me : j = i
    · subst me
      rw [Function.update_self, (Phase.ends.only now ends k)]
      exact Phase.ends.only later still k
    · rw [Function.update_of_ne me]
  have noSleep := Phase.ends.not_sleepsOn ends
  exact {
    wf := by
      refine forall_update (fun (j : Fin num.toNat) (cl : Cluster) => cl.Wf num j (program j)) ?_
        fun j _ => inv.wf j
      exact {
        table := (inv.wf i).table
        current := fun comm' now' => (inv.wf i).current comm' (by rw [now, ← later]; exact now')
        init := fun idle => by
          rw [show phase = .init from idle] at later
          cases later }
    rounds := by
      refine forall_update (fun (j : Fin num.toNat) (cl : Cluster) =>
        ∀ k, Participates (sizes num world) k j → cl.left (program j) k = round k ∨
          cl.phase.arrivedAt k ∧ cl.left (program j) k + 1 = round k) ?_ fun j _ => inv.rounds j
      intro k joins
      have before := inv.rounds i k joins
      rw [Phase.arrivedAt.only now (Phase.ends.arrivedAt ends) k, ← Phase.arrivedAt.only later (Phase.ends.arrivedAt still) k] at before
      exact before
    waits := by
      refine forall_update (fun (j : Fin num.toNat) (cl : Cluster) => ∀ k, cl.phase.arrivedAt k →
        cl.left (program j) k = round k → cl.phase.sleepsOn k) ?_ fun j _ => inv.waits j
      intro k arrived left
      have arrived' := (Phase.arrivedAt.only later (Phase.ends.arrivedAt still) k).symm.trans arrived
      rw [← Phase.arrivedAt.only now (Phase.ends.arrivedAt ends) k] at arrived'
      have sleeps := inv.waits i k arrived' left
      rw [noSleep] at sleeps
      cases sleeps
    unique := fun j j' k ends ends' =>
      inv.unique j j' k ((same j k).symm.trans ends) ((same j' k).symm.trans ends')
    owed := by
      intro j j' k apart owes joins
      have ends' : (s.clusters j').phase.ends k := (same j' k).symm.trans (Phase.owes.ends owes)
      have before : (s.clusters j').phase.owes k j := by
        by_cases me : j' = i
        · subst me
          have k_eq : comm.barrierPtr = k := by
            simpa [(Phase.ends.only now ends k)] using ends'
          subst k_eq
          exact owed j (by simpa using owes)
        · simpa [Function.update_of_ne me] using owes
      obtain ⟨sleeps, ended, clean⟩ := inv.owed j j' k apart before joins
      have other : j ≠ i := by
        rintro rfl
        rw [noSleep] at sleeps
        cases sleeps
      refine ⟨by simpa [Function.update_of_ne other], by simpa [Function.update_of_ne other], ?_⟩
      rw [← Bool.not_eq_true]
      intro woken
      rcases awake j woken with pending | ⟨-, mine, done, joins'⟩
      · rw [clean] at pending
        cases pending
      · -- it sleeps on one counter only, whose round one cluster ends
        have asleep := (inv.owed j i _ other mine joins').1
        have k_eq : comm.barrierPtr = k := by
          cases phase' : (s.clusters j).phase <;> simp_all [Phase.sleepsOn]
        subst k_eq
        have me := inv.unique j' i _ ends' ends
        subst me
        simp [done] at owes
    pending := by
      intro j woken
      by_cases me : j = i
      · subst me
        rcases awake j woken with pending | ⟨other, -⟩
        · rcases inv.pending j pending with ⟨comm', asleep, -⟩ | ⟨comm', asleep⟩ <;>
            rw [asleep] at ends <;> cases ends
        · exact absurd rfl other
      · simp only [Function.update_of_ne me]
        rcases awake j woken with pending | ⟨-, mine, -, joins⟩
        · exact inv.pending j pending
        · obtain ⟨sleeps, ended, -⟩ := inv.owed j i _ me mine joins
          cases asleep : (s.clusters j).phase <;> simp_all [Phase.sleepsOn]
    counted := by
      intro k ready quiet
      have ready' : Ready program s k := fun z zero => by
        have later' := ready z zero
        by_cases me : z = i
        · subst me
          refine Nat.lt_of_lt_of_le later' ?_
          have started : (s.clusters z).phase.started := by
            cases asleep : (s.clusters z).phase <;> simp_all [Phase.comm?, Phase.started]
          have started' : phase.started := by
            cases phase <;> simp_all [Phase.comm?, Phase.started]
          simp [Cluster.initialized, started, started']
        · simpa [Function.update_of_ne me] using later'
      have moved := population_update (p := WaitsIn program k (round k)) s.clusters i
        { s.clusters i with phase }
      rw [if_neg fun waits => by simpa [noSleep] using waits.1,
        if_neg fun waits => by simpa [Phase.ends.not_sleepsOn still] using waits.1] at moved
      refine (counted k ready' fun j me => ?_).trans (congrArg _ moved.symm)
      simpa [Function.update_of_ne me] using quiet j
    full := by
      intro j comm' resets
      by_cases me : j = i
      · subst me
        have never := noReset comm'.barrierPtr
        rw [show phase = .reset comm' by simpa using resets] at never
        simp [Phase.resets] at never
      · simp only [Function.update_of_ne me] at resets
        have other : comm'.barrierPtr ≠ comm.barrierPtr := fun same =>
          me (inv.unique j i comm.barrierPtr (by simp [resets, Phase.ends, same]) ends)
        exact (full _ other).trans (inv.full j comm' resets) }

/-- The counter starts over: nobody sleeps in a round that has not begun. -/
theorem Inv.resets (inv : Inv program world round s) (agree : Collective program world)
    {i : Fin num.toNat} {comm : CommInfo} (now : (s.clusters i).phase = .reset comm) :
    Inv program world round { s with
      clusters := Function.update s.clusters i { s.clusters i with phase := .wake comm 0 }
      barrier := Function.update s.barrier comm.barrierPtr 0 } := by
  have here : (s.clusters i).phase.comm? = some comm := by rw [now]; rfl
  refine inv.turns here rfl (by simp [now, Phase.ends]) (by simp [Phase.ends])
    (fun _ => rfl) (fun j _ => by simp [now, Phase.owes]) (fun j pending => Or.inl pending) ?_
    fun k other => Function.update_of_ne other _ _
  intro k ready others
  by_cases same : k = comm.barrierPtr
  · subst same
    rw [Function.update_self, population_eq_zero.mpr]
    · rfl
    · rintro j ⟨sleeps, still⟩
      have apart : j ≠ i := by
        rintro rfl
        rw [now] at sleeps
        cases sleeps
      have ended := (inv.owed j i _ apart (by simp [now, Phase.owes])
        ((inv.wf j).arrived (agree j) (Phase.sleepsOn.arrivedAt sleeps))).2.1
      omega
  · rw [Function.update_of_ne same]
    refine inv.counted k ready fun j => ?_
    by_cases me : j = i
    · rw [me, now]
      simpa [Phase.resets] using fun eq => same eq.symm
    · exact others j me

/-- One wake-up. -/
theorem Inv.wakes (inv : Inv program world round s) (agree : Collective program world)
    {i : Fin num.toNat} {comm : CommInfo} {m : Nat}
    (now : (s.clusters i).phase = .wake comm m) (more : m < comm.size.toNat) :
    Inv program world round { s with
      clusters := Function.update s.clusters i { s.clusters i with phase := .wake comm (m + 1) }
      mcip := fun c => s.mcip c || (c.val == m && c != i) } := by
  have here : (s.clusters i).phase.comm? = some comm := by rw [now]; rfl
  obtain ⟨size, -⟩ := (inv.wf i).participates (agree i) here
  refine inv.turns here rfl (by simp [now, Phase.ends]) (by simp [Phase.ends])
    (fun _ => rfl) ?_ ?_ ?_ fun _ _ => rfl
  · intro j owes
    simp only [now, Phase.owes, beq_self_eq_true, Bool.true_and, decide_eq_true_eq] at owes ⊢
    omega
  · intro j woken
    simp only [Bool.or_eq_true, Bool.and_eq_true, beq_iff_eq, bne_iff_ne] at woken
    refine woken.imp_right fun ⟨this, other⟩ => ⟨other, ?_, ?_, comm.size, size, this ▸ more⟩
    · simp [now, Phase.owes, this]
    · simp [Phase.owes, this]
  · intro k ready others
    refine inv.counted k ready fun j => ?_
    by_cases me : j = i
    · rw [me, now]
      rfl
    · exact others j me

/-- Core 0 clears the counter it is about to publish. -/
theorem Inv.initializes (inv : Inv program world round s) (agree : Collective program world)
    {i : Fin num.toNat} (now : (s.clusters i).phase = .init) :
    Inv program world round { s with
      clusters := Function.update s.clusters i { s.clusters i with phase := .add (commWorld num) }
      barrier := Function.update s.barrier (s.clusters i).comms.length 0 } := by
  obtain ⟨zero, created, present⟩ := (inv.wf i).init now
  have away : ∀ k, (s.clusters i).phase.arrivedAt k = false := fun k => by rw [now]; rfl
  have awake : ∀ k, (s.clusters i).phase.sleepsOn k = false := fun k => by rw [now]; rfl
  have length : (s.clusters i).initialized (program i) = (s.clusters i).comms.length := by
    simp [(inv.wf i).table, Cluster.initialized, now, Phase.started, Nat.add_comm]
  -- nobody knows the new communicator yet
  have unknown : ∀ j k, (s.clusters j).phase.arrivedAt k → k < (s.clusters i).comms.length := by
    intro j k arrived
    obtain ⟨comm, here, rfl⟩ := Phase.arrivedAt.comm arrived
    rw [← length]
    exact inv.ready agree ((inv.wf j).comm_lt here) i zero
  have moved := inv.moves (i := i) { s.clusters i with phase := .add (commWorld num) } (s.mcip i)
    (Function.update s.barrier (s.clusters i).comms.length 0) ?_ ?_ ?_
    (fun _ => rfl) (inv.unowed awake) ?_ ?_ ?_
  · rwa [Function.update_eq_self] at moved
  · refine { table := (inv.wf i).table, current := ?_, init := fun idle => by cases idle }
    intro comm here
    cases here
    exact ⟨rfl, by simp [(inv.wf i).table, commWorld, CommInfo.of], _, present, rfl⟩
  · exact fun k joins => Or.inl (inv.left_eq joins (away k))
  · exact fun k arrived _ => by cases arrived
  · intro pending
    rw [inv.not_pending (fun _ => by simp [now]) fun _ => by simp [now]] at pending
    cases pending
  · intro k ready others
    have still := population_update (p := WaitsIn program k (round k)) s.clusters i
      { s.clusters i with phase := .add (commWorld num) }
    rw [if_neg fun waits => by simpa [awake k] using waits.1, if_neg fun waits => by cases waits.1]
      at still
    rw [Nat.add_zero, Nat.add_zero] at still
    by_cases same : k = (s.clusters i).comms.length
    · subst same
      rw [Function.update_self, still,
        population_eq_zero.mpr]
      · rfl
      · exact fun j waits => Nat.lt_irrefl _ (unknown j _ (Phase.sleepsOn.arrivedAt waits.1))
    · have ready' : Ready program s k := by
        have later := ready i zero
        intro z zero'
        have me : z = i := Fin.ext (zero'.trans zero.symm)
        subst me
        rw [length]
        have more : { s.clusters z with phase := .add (commWorld num) }.initialized (program z) =
            (s.clusters z).comms.length + 1 := by
          simp [Cluster.initialized, Phase.started, (inv.wf z).table, List.take_add_one, present,
            Call.creates]
          omega
        simp only [Function.update_self, more] at later
        omega
      rw [Function.update_of_ne same, inv.counted k ready' fun j => ?_]
      · exact congrArg _ still.symm
      · by_cases me : j = i
        · rw [me, now]
          rfl
        · exact others j me
  · intro j comm me resets
    refine Function.update_of_ne (fun same => ?_) _ _
    have known := unknown j comm.barrierPtr (by simp [resets, Phase.arrivedAt])
    exact absurd known (by omega)

/-- What a cluster stores is what its calls create. -/
theorem Cluster.Wf.leave {idx : Nat} {calls : List Call} {cl : Cluster} (wf : cl.Wf num idx calls) :
    (cl.leave idx calls).Wf num idx calls where
  table := by
    have length : cl.comms.length = ((calls.take cl.returned).filterMap Call.creates).length + 1 := by
      simp [wf.table]
    rw [Cluster.leave, List.take_add_one, List.filterMap_append, ← List.cons_append,
      List.mapIdx_append, ← wf.table, length, List.length_cons]
    cases calls[cl.returned]? with
    | none => rfl
    | some call => cases call <;> simp [Call.creates]
  current _ here := by cases here
  init idle := by cases idle

/-- A cluster returns from a barrier whose round is over. -/
theorem Inv.leaves (inv : Inv program world round s) (agree : Collective program world)
    {i : Fin num.toNat} {comm : CommInfo} (now : (s.clusters i).phase.comm? = some comm)
    (arrived : (s.clusters i).phase.arrivedAt comm.barrierPtr)
    (awake : ∀ k, (s.clusters i).phase.sleepsOn k = false)
    (noReset : ∀ k, (s.clusters i).phase.resets k = false) (clean : s.mcip i = false) :
    Inv program world round { s with
      clusters := Function.update s.clusters i ((s.clusters i).leave i (program i)) } := by
  have ended := inv.left_succ agree arrived (awake _)
  obtain ⟨-, -, call, present, on⟩ := (inv.wf i).current comm now
  have moved := inv.quiet (i := i) ((s.clusters i).leave i (program i)) (s.mcip i)
    (inv.wf i).leave ?_ (fun k waits => by simpa [awake k] using waits.1)
    (fun k arrived => by cases arrived) noReset (fun _ => rfl) (inv.unowed awake)
    (fun pending => by simp [clean] at pending) fun _ => ?_
  · rwa [Function.update_eq_self] at moved
  · intro k joins
    left
    by_cases same : k = comm.barrierPtr
    · rw [same, (inv.wf i).left_leave now]
      exact ended
    · have off : call.on k = false := by
        rw [← Bool.not_eq_true]
        exact fun here => same (Call.on_unique here on)
      have away : (s.clusters i).phase.arrivedAt k = false := by
        rw [Phase.arrivedAt.only now arrived]
        exact beq_false_of_ne fun eq => same eq.symm
      rw [Cluster.left_leave, present, Option.any_some, off]
      exact inv.left_eq joins away
  · unfold Cluster.initialized
    rw [if_pos (Phase.arrivedAt.started arrived)]
    rfl

/-- A cluster comes to its next call. -/
theorem Inv.enters (inv : Inv program world round s) {i : Fin num.toNat} {phase : Phase}
    (now : (s.clusters i).phase = .between) (away : ∀ k, phase.arrivedAt k = false)
    (wf : { s.clusters i with phase }.Wf num i (program i))
    (initialized : i.val = 0 →
      { s.clusters i with phase }.initialized (program i) = (s.clusters i).initialized (program i)) :
    Inv program world round { s with
      clusters := Function.update s.clusters i { s.clusters i with phase } } := by
  have away' : ∀ k, (s.clusters i).phase.arrivedAt k = false := fun k => by rw [now]; rfl
  have awake : ∀ k, (s.clusters i).phase.sleepsOn k = false := fun k => by rw [now]; rfl
  have moved := inv.quiet _ (s.mcip i) wf
    (fun k joins => Or.inl (inv.left_eq joins (away' k))) (fun k waits => by simpa [awake k] using waits.1)
    (fun k arrived => by rw [away k] at arrived; cases arrived) (fun k => by rw [now]; rfl)
    (fun k => by
      rw [← Bool.not_eq_true]
      intro ends
      have arrived := Phase.ends.arrivedAt ends
      rw [away k] at arrived
      cases arrived)
    (inv.unowed awake) (fun pending => ?_) initialized
  · rwa [Function.update_eq_self] at moved
  · rw [inv.not_pending (fun _ => by simp [now]) fun _ => by simp [now]] at pending
    cases pending

/-- A cluster is not in the communicator of the barrier it calls. -/
theorem Inv.skips (inv : Inv program world round s) (agree : Collective program world)
    {i : Fin num.toNat} {k : Nat} {comm : CommInfo} (now : (s.clusters i).phase = .between)
    (call : (program i)[(s.clusters i).returned]? = some (.barrier k))
    (known : (s.clusters i).comms[k]? = some comm) (out : comm.isParticipant = false) :
    Inv program world round { s with
      clusters := Function.update s.clusters i ((s.clusters i).leave i (program i)) } := by
  obtain ⟨size, same⟩ := (inv.wf i).known (agree i) known
  have away : ∀ k, (s.clusters i).phase.arrivedAt k = false := fun k => by rw [now]; rfl
  have awake : ∀ k, (s.clusters i).phase.sleepsOn k = false := fun k => by rw [now]; rfl
  have moved := inv.quiet (i := i) ((s.clusters i).leave i (program i)) (s.mcip i)
    (inv.wf i).leave ?_ (fun k waits => by simpa [awake k] using waits.1)
    (fun k arrived => by cases arrived) (fun k => by rw [now]; rfl) (fun _ => rfl)
    (inv.unowed awake) (fun pending => ?_) fun _ => ?_
  · rwa [Function.update_eq_self] at moved
  · intro k' joins
    have other : k ≠ k' := by
      rintro rfl
      obtain ⟨size', there, inside⟩ := joins
      rw [size] at there
      cases there
      rw [same] at out
      exact absurd inside (by simpa [CommInfo.of] using out)
    left
    rw [Cluster.left_leave, call, Option.any_some, show (Call.barrier k).on k' = false from
      beq_false_of_ne other]
    exact inv.left_eq joins (away k')
  · rw [inv.not_pending (fun _ => by simp [now]) fun _ => by simp [now]] at pending
    cases pending
  · simp [Cluster.initialized, Cluster.leave, Phase.started, now, List.take_add_one, call,
      Call.creates]

/-- A cluster wakes from its sleep, and clears the interrupt. -/
theorem Inv.wakesUp (inv : Inv program world round s)
    {i : Fin num.toNat} {comm : CommInfo} (now : (s.clusters i).phase = .wfi comm)
    (woken : s.mcip i) : Inv program world round { s with
      clusters := Function.update s.clusters i { s.clusters i with phase := .clear comm } } := by
  have here : (s.clusters i).phase.comm? = some comm := by rw [now]; rfl
  have ended : (s.clusters i).left (program i) comm.barrierPtr + 1 = round comm.barrierPtr := by
    rcases inv.pending i woken with ⟨comm', asleep, ended⟩ | ⟨comm', asleep⟩
    · rw [now] at asleep
      cases asleep
      exact ended
    · rw [now] at asleep
      cases asleep
  have moved := inv.quiet (i := i) { s.clusters i with phase := .clear comm } (s.mcip i)
    ?_ ?_ ?_ ?_ (fun k => by rw [now]; rfl) (fun _ => rfl) ?_ (fun _ => Or.inr ⟨comm, rfl⟩) fun _ => ?_
  · rwa [Function.update_eq_self] at moved
  · exact (inv.wf i).same here (by simp)
  · intro k joins
    have before := inv.rounds i k joins
    rw [now] at before
    exact before
  · rintro k ⟨sleeps, still⟩
    rw [now] at sleeps
    have same : comm.barrierPtr = k := by simpa [Phase.sleepsOn] using sleeps
    subst same
    omega
  · intro k arrived still
    have same : comm.barrierPtr = k := by simpa [Phase.arrivedAt] using arrived
    subst same
    exact absurd (ended.trans still.symm) (Nat.succ_ne_self _)
  · intro j k apart owes joins
    have clean := (inv.owed i j k apart owes joins).2.2
    rw [woken] at clean
    cases clean
  · simp [Cluster.initialized, now, Phase.started]

theorem Inv.clears (inv : Inv program world round s) (agree : Collective program world)
    {i : Fin num.toNat} {comm : CommInfo} (now : (s.clusters i).phase = .clear comm) :
    Inv program world round { s with
      clusters := Function.update s.clusters i { s.clusters i with phase := .poll comm }
      mcip := Function.update s.mcip i false } := by
  have here : (s.clusters i).phase.comm? = some comm := by rw [now]; rfl
  have awake : ∀ k, (s.clusters i).phase.sleepsOn k = false := fun k => by rw [now]; rfl
  refine inv.quiet _ false ?_ ?_ (fun k waits => by simpa [awake k] using waits.1) ?_
    (fun k => by rw [now]; rfl) (fun _ => rfl) (inv.unowed awake) (fun never => by cases never)
    fun _ => ?_
  · exact (inv.wf i).same here (by simp)
  · intro k joins
    have before := inv.rounds i k joins
    rw [now] at before
    exact before
  · intro k arrived still
    have arrived' : (s.clusters i).phase.arrivedAt k := by rw [now]; exact arrived
    have ended := inv.left_succ agree arrived' (awake k)
    exact absurd (ended.trans still.symm) (Nat.succ_ne_self _)
  · simp [Cluster.initialized, now, Phase.started]

/-- **One access of one cluster.** -/
theorem Inv.step (inv : Inv program world round s) (agree : Collective program world)
    {i : Fin num.toNat} {t : State num} (taken : (clusters program).step i s = some t) :
    ∃ round', Inv program world round' t := by
  simp only [clusters, Communicator.step] at taken
  cases now : (s.clusters i).phase with
  | between =>
    have away : ∀ k, (s.clusters i).phase.arrivedAt k = false := fun k => by rw [now]; rfl
    cases call : (program i)[(s.clusters i).returned]? with
    | none => simp [now, call] at taken
    | some call' =>
      cases call' with
      | commCreate size =>
        simp only [now, call, Option.some.injEq] at taken
        subst taken
        by_cases zero : i.val = 0
        · rw [if_pos zero]
          refine ⟨round, inv.enters now (fun _ => rfl) ?_ fun _ => ?_⟩
          · exact {
              table := (inv.wf i).table
              current := fun _ here => by cases here
              init := fun _ => ⟨zero, size, call⟩ }
          · simp [Cluster.initialized, now, Phase.started]
        · rw [if_neg zero]
          refine ⟨round, inv.enters now (fun _ => rfl) ?_ fun zero' => absurd zero' zero⟩
          refine { table := (inv.wf i).table, current := ?_, init := fun idle => by cases idle }
          intro comm here
          cases here
          exact ⟨rfl, by simp [(inv.wf i).table, commWorld, CommInfo.of], _, call, rfl⟩
      | barrier k =>
        cases known : (s.clusters i).comms[k]? with
        | none => simp [now, call, known] at taken
        | some comm =>
          simp only [now, call, known, Option.some.injEq] at taken
          subst taken
          cases joins : comm.isParticipant with
          | false => exact ⟨round, inv.skips agree now call known joins⟩
          | true =>
            refine ⟨round, inv.enters now (fun _ => rfl) ?_ fun _ => ?_⟩
            · refine { table := (inv.wf i).table, current := ?_, init := fun idle => by cases idle }
              intro comm' here
              cases here
              have same : comm.barrierPtr = k := by
                rw [((inv.wf i).known (agree i) known).2, CommInfo.of]
              rw [same]
              exact ⟨joins, known, _, call, by simp [Call.on]⟩
            · simp [Cluster.initialized, now, Phase.started, List.take_add_one, call,
                Call.creates]
  | init =>
    simp only [now, Option.some.injEq] at taken
    subst taken
    exact ⟨round, inv.initializes agree now⟩
  | add comm =>
    simp only [now, Option.some.injEq] at taken
    subst taken
    by_cases full : s.barrier comm.barrierPtr + 1 = comm.size
    · rw [if_pos full]
      exact ⟨_, inv.last agree now full⟩
    · rw [if_neg full]
      exact ⟨round, inv.sleeps agree now⟩
  | reset comm =>
    simp only [now, Option.some.injEq] at taken
    subst taken
    exact ⟨round, inv.resets agree now⟩
  | wake comm m =>
    by_cases more : m < comm.size.toNat
    · simp only [now, if_pos more, Option.some.injEq] at taken
      subst taken
      exact ⟨round, inv.wakes agree now more⟩
    · simp only [now, if_neg more, Option.some.injEq] at taken
      subst taken
      refine ⟨round, inv.leaves agree (by rw [now]; rfl) (by simp [now, Phase.arrivedAt])
        (fun k => by rw [now]; rfl) (fun k => by rw [now]; rfl) ?_⟩
      exact inv.not_pending (fun _ => by simp [now]) fun _ => by simp [now]
  | wfi comm =>
    by_cases woken : s.mcip i
    · simp only [now, if_pos woken, Option.some.injEq] at taken
      subst taken
      exact ⟨round, inv.wakesUp now woken⟩
    · simp [now, woken] at taken
  | clear comm =>
    simp only [now, Option.some.injEq] at taken
    subst taken
    exact ⟨round, inv.clears agree now⟩
  | poll comm =>
    have clean : s.mcip i = false :=
      inv.not_pending (fun _ => by simp [now]) fun _ => by simp [now]
    simp only [now, clean, Bool.false_eq_true, if_false, Option.some.injEq] at taken
    subst taken
    exact ⟨round, inv.leaves agree (by rw [now]; rfl) (by simp [now, Phase.arrivedAt])
      (fun k => by rw [now]; rfl) (fun k => by rw [now]; rfl) clean⟩

end Steps

section Runs

variable {num : BitVec 32} {program : Fin num.toNat → List Call} {world : List Call}

theorem Inv.start (some : 0 < num.toNat) (program : Fin num.toNat → List Call) (world : List Call)
    (memory : Nat → BitVec 32) : Inv program world (fun _ => 0) (start num memory) where
  wf i := {
    table := by simp [Communicator.start, commWorld, CommInfo.of]
    current := fun _ here => by cases here
    init := fun idle => by cases idle }
  rounds _ _ _ := Or.inl rfl
  waits _ _ arrived := by cases arrived
  unique _ _ _ ends := by cases ends
  owed _ _ _ _ owes := by cases owes
  pending _ woken := by cases woken
  counted k ready _ := by
    have empty : population (WaitsIn program k 0) (Communicator.start num memory).clusters = 0 :=
      population_eq_zero.mpr fun i waits => by cases waits.1
    rw [empty]
    -- only the world's counter is initialized
    have here : k < 1 := ready ⟨0, some⟩ rfl
    rw [Nat.lt_one_iff.mp here]
    rfl
  full _ _ resets := by cases resets

theorem exists_inv (i : Fin num.toNat) (agree : Collective program world)
    {memory : Nat → BitVec 32} {s : State num}
    (reached : (clusters program).Reachable (start num memory) s) :
    ∃ round, Inv program world round s :=
  reached.invariant (fun s => ∃ round, Inv program world round s) ⟨_, .start i.pos program world memory⟩
    fun _ _ _ ⟨_, inv⟩ _ taken => inv.step agree taken

/-- No counter a cluster knows exceeds the size of its communicator. -/
theorem Inv.counter_le {round : Nat → Nat} {s : State num} (inv : Inv program world round s)
    (agree : Collective program world) {i : Fin num.toNat} {k : Nat} {comm : CommInfo}
    (known : (s.clusters i).comms[k]? = some comm) :
    (s.barrier comm.barrierPtr).toNat ≤ comm.size.toNat := by
  obtain ⟨size, same⟩ := (inv.wf i).known (agree i) known
  have number : comm.barrierPtr = k := by rw [same, CommInfo.of]
  rw [number]
  by_cases reset : ∃ j, (s.clusters j).phase.resets k
  · obtain ⟨j, resets⟩ := reset
    cases now : (s.clusters j).phase with
    | reset comm' =>
      have here : comm'.barrierPtr = k := by simpa [now, Phase.resets] using resets
      have there := ((inv.wf j).participates (agree j)
        (show (s.clusters j).phase.comm? = some comm' by rw [now]; rfl)).1
      rw [here, size, Option.some.injEq] at there
      have counter := inv.full j comm' now
      rw [here] at counter
      rw [counter, there]
    | between | init | add _ | wake _ _ | wfi _ | clear _ | poll _ => simp [now, Phase.resets] at resets
  · have quiet : ∀ j, (s.clusters j).phase.resets k = false := fun j =>
      Bool.eq_false_iff.mpr fun here => reset ⟨j, here⟩
    rw [inv.counted k (inv.ready agree (List.getElem?_eq_some_iff.mp known).1) quiet,
      BitVec.toNat_ofNat]
    refine (Nat.mod_le _ _).trans ?_
    have few : population (WaitsIn program k (round k)) s.clusters ≤
        (Finset.univ.filter fun j : Fin num.toNat => j.val < comm.size.toNat).card := by
      refine Finset.card_le_card fun j waits => ?_
      have sleeps := (Finset.mem_filter.mp waits).2.1
      obtain ⟨size', there, joins⟩ := (inv.wf j).arrived (agree j) (Phase.sleepsOn.arrivedAt sleeps)
      rw [size] at there
      cases there
      exact Finset.mem_filter.mpr ⟨Finset.mem_univ j, joins⟩
    rw [Fin.card_filter_val_lt] at few
    exact few.trans (Nat.min_le_right _ _)

/-- **The barriers separate rounds, and leave no interrupt behind.**  However the clusters
interleave, one that takes part in a communicator has left no more barriers on it than
any other that does has arrived at; the counters never exceed the sizes; and a cluster
that has not arrived at its barrier finds no interrupt pending. -/
theorem barriers_separated (agree : Collective program world) {memory : Nat → BitVec 32}
    {s : State num} (reached : (clusters program).Reachable (start num memory) s) :
    (∀ (i j : Fin num.toNat) (k : Nat), Participates (sizes num world) k i →
        Participates (sizes num world) k j →
        (s.clusters i).left (program i) k ≤ (s.clusters j).arrivals (program j) k) ∧
      (∀ (i : Fin num.toNat) (k : Nat) (comm : CommInfo), (s.clusters i).comms[k]? = some comm →
        (s.barrier comm.barrierPtr).toNat ≤ comm.size.toNat) ∧
      ∀ i, (∀ k, (s.clusters i).phase.arrivedAt k = false) → s.mcip i = false := by
  refine ⟨fun i j k joins joins' => ?_, fun i k comm known => ?_, fun i away => ?_⟩ <;>
    obtain ⟨round, inv⟩ := exists_inv i agree reached
  · exact (inv.left_le i joins).1.trans (inv.left_le j joins').2
  · exact inv.counter_le agree known
  · refine inv.not_pending (fun comm now => ?_) fun comm now => ?_ <;>
    · have arrived := away comm.barrierPtr
      simp [now, Phase.arrivedAt] at arrived

/-- Two clusters create a communicator and synchronize on it. -/
def pair : Fin (2 : BitVec 32).toNat → List Call := fun _ => [.commCreate 2, .barrier 1]

/-- The second ends the creation and sleeps on the new counter before the first wakes up. -/
def ahead : List (Fin (2 : BitVec 32).toNat) :=
  let slow := ⟨0, Nat.two_pos⟩
  let fast := ⟨1, Nat.one_lt_two⟩
  [slow, slow, slow, fast, fast, fast, fast, fast, fast, fast, fast]

def gotAhead : State 2 := ((clusters pair).run (start 2 fun _ => 7) ahead).getD (start 2 fun _ => 7)

theorem barriers_separated_gotAhead :
    (gotAhead.clusters ⟨1, by decide⟩).left (pair ⟨1, by decide⟩) 0 = 1 ∧
      (gotAhead.clusters ⟨0, by decide⟩).phase = .wfi (commWorld 2) ∧
      (gotAhead.clusters ⟨1, by decide⟩).phase = .wfi ⟨1, 2, true⟩ ∧
      gotAhead.mcip ⟨0, by decide⟩ = true ∧
      (gotAhead.clusters ⟨1, by decide⟩).left (pair ⟨1, by decide⟩) 0 ≤
        (gotAhead.clusters ⟨0, by decide⟩).arrivals (pair ⟨0, by decide⟩) 0 ∧
      (gotAhead.barrier 1).toNat ≤ 2 :=
  have agree : Collective pair [.commCreate 2] := fun _ => rfl
  have reached : (clusters pair).Reachable (start 2 fun _ => 7) gotAhead :=
    (clusters pair).reachable_run ahead rfl
  have all := barriers_separated agree reached
  ⟨rfl, rfl, rfl, rfl, all.1 _ _ 0 ⟨2, rfl, by decide⟩ ⟨2, rfl, by decide⟩,
    all.2.1 ⟨1, by decide⟩ 1 ⟨1, 2, true⟩ rfl⟩

end Runs

end SnitchCluster.Runtime.Communicator
