/-
# Ssr.Streamer -- one configuration port for several data movers

`snitch_ssr_streamer` addresses its data movers through one register port: the
upper address bits select one of them, all ones select every one.  Readiness is
combined at the port, while each data mover enables its registers by its own.

`writes_taken_when_ready` says when the two agree: unless a broadcast meets some
data movers with a job waiting and some without.  In runs without such a broadcast
the registers and jobs of a data mover are those of the acknowledged writes to it.

The register switch, the intersector and the memory drive the other ports of the
data movers, which are free here.
-/
import SnitchCluster.Ssr.Composite

namespace SnitchCluster.Ssr

open Theory

/-- The data movers: their parameters and cells. -/
structure StreamerParts where
  NumSsrs : Nat
  SsrCfgs : Fin NumSsrs → Cfg
  ag : ∀ k, AgParts (SsrCfgs k)
  dm : ∀ k, DmParts (SsrCfgs k)

def StreamerParts.ofList {n : Nat} (SsrCfgs : Fin n → Cfg) : StreamerParts :=
  ⟨n, SsrCfgs, fun k => .ofList (SsrCfgs k), fun k => .ofList (SsrCfgs k)⟩

structure Streamer (S : StreamerParts) where
  ssr : ∀ k, SnitchSsr (S.ag k) (S.dm k)

def Streamer.init (S : StreamerParts) : Streamer S := ⟨fun k => .init (S.ag k) (S.dm k)⟩

/-- The inputs of a cycle: the configuration port, and the remaining ports of each
data mover. -/
structure StreamerIn (S : StreamerParts) where
  cfgWord : BitVec 12 := 0
  cfgWdata : BitVec 32 := 0
  cfgWrite : Bool := false
  port : ∀ k, SsrIn (S.SsrCfgs k)

/-! ## The configuration port -/

/-- `dmcfg_word`. -/
def dmcfgWord (w : BitVec 12) : BitVec 5 := w.extractLsb' 0 5

/-- `dmcfg_upper_addr`. -/
def dmcfgUpperAddr (w : BitVec 12) : BitVec 5 := w.extractLsb' 7 5

/-- `dmcfg_strobe`. -/
def dmcfgStrobe (w : BitVec 12) (k : Nat) : Bool :=
  if dmcfgUpperAddr w = BitVec.allOnes 5 then true else decide ((dmcfgUpperAddr w).toNat = k)

namespace StreamerIn

variable {S : StreamerParts} (i : StreamerIn S)

/-- What reaches a data mover. -/
def ssrIn (k : Fin S.NumSsrs) : SsrIn (S.SsrCfgs k) :=
  { i.port k with
    ag :=
      { (i.port k).ag with
        cfgWord := dmcfgWord i.cfgWord
        cfgWdata := i.cfgWdata
        cfgWrite := i.cfgWrite && dmcfgStrobe i.cfgWord k } }

/-- The same cycle without a write. -/
def silent : StreamerIn S := { i with cfgWrite := false }

end StreamerIn

namespace Streamer

variable {S : StreamerParts} (s : Streamer S) (i : StreamerIn S)

/-- `dmcfg_wready`. -/
def dmcfgWready (k : Fin S.NumSsrs) : Bool := (s.ssr k).agen.cfgWready

/-- `cfg_wready_o`. -/
def cfgWready : Bool :=
  if one : (dmcfgUpperAddr i.cfgWord).toNat < S.NumSsrs then s.dmcfgWready ⟨_, one⟩
  else if dmcfgUpperAddr i.cfgWord = BitVec.allOnes 5 then
    (List.finRange S.NumSsrs).all s.dmcfgWready
  else true

/-- In every data mover the ready wire carries what drives it. -/
def Wired : Prop := ∀ k, (s.ssr k).Wired (i.ssrIn k)

instance : Decidable (s.Wired i) := inferInstanceAs (Decidable (∀ _, _))

def next : Streamer S := ⟨fun k => (s.ssr k).next (i.ssrIn k)⟩

/-- The data mover enables its registers. -/
def takes (k : Fin S.NumSsrs) : Bool := (s.ssr k).agen.cfgWriteEna (i.ssrIn k).ag

/-! ## One cycle -/

/-- A write reaches the data movers it addresses in the cycle that acknowledges it,
and until then leaves every one of them alone. -/
structure TakenWhenReady : Prop where
  held : s.cfgWready i = false → ∀ k, s.takes i k = false ∧ (s.next i).ssr k = (s.next i.silent).ssr k
  applied : s.cfgWready i = true → i.cfgWrite = true → ∀ k : Fin S.NumSsrs,
    dmcfgStrobe i.cfgWord k = true → s.takes i k = true

/-- A broadcast write while some data movers, but not all, have a job waiting. -/
def MixedBroadcast : Prop :=
  i.cfgWrite = true ∧ dmcfgUpperAddr i.cfgWord = BitVec.allOnes 5 ∧
    (∃ k, s.dmcfgWready k = true) ∧ ∃ k, s.dmcfgWready k = false

instance : Decidable (s.MixedBroadcast i) := inferInstanceAs (Decidable (_ ∧ _ ∧ _ ∧ _))

variable {s i}

theorem takes_eq (k : Fin S.NumSsrs) :
    s.takes i k = (s.dmcfgWready k && (i.cfgWrite && dmcfgStrobe i.cfgWord k)) := rfl

/-- A data mover that takes no write goes on as if there were none. -/
theorem next_of_not_taken {k : Fin S.NumSsrs} (refused : s.takes i k = false) :
    (s.next i).ssr k = (s.next i.silent).ssr k := by
  show (s.ssr k).next (i.ssrIn k) = (s.ssr k).next (i.silent.ssrIn k)
  rw [takes_eq] at refused
  cases free : s.dmcfgWready k with
  | true =>
    rw [free, Bool.true_and] at refused
    have same : i.ssrIn k = i.silent.ssrIn k := by
      unfold StreamerIn.ssrIn
      rw [refused]
      rfl
    rw [same]
  | false =>
    -- no write at all gets through to the registers
    unfold dmcfgWready AddrGen.cfgWready at free
    revert free
    generalize s.ssr k = t
    obtain ⟨⟨regs, regsS, pointer, pointerS, config, configS, index, base, word, indir, spill⟩,
      dm⟩ := t
    obtain ⟨done, write, dims, indirect⟩ := configS
    intro waits
    have waits : done = false := waits
    subst waits
    rfl

/-- The port answers for a data mover it addresses alone. -/
theorem cfgWready_one {k : Fin S.NumSsrs} (one : (dmcfgUpperAddr i.cfgWord).toNat = k.val) :
    s.cfgWready i = s.dmcfgWready k := by
  have bound : (dmcfgUpperAddr i.cfgWord).toNat < S.NumSsrs := one ▸ k.isLt
  rw [cfgWready, dif_pos bound]
  exact congrArg s.dmcfgWready (Fin.ext one)

/-- For a broadcast the port answers what all data movers answer alike. -/
theorem cfgWready_all (all : dmcfgUpperAddr i.cfgWord = BitVec.allOnes 5) {b : Bool}
    (uniform : ∀ k, s.dmcfgWready k = b) (k : Fin S.NumSsrs) : s.cfgWready i = b := by
  unfold cfgWready
  by_cases one : (dmcfgUpperAddr i.cfgWord).toNat < S.NumSsrs
  · rw [dif_pos one]
    exact uniform _
  · rw [dif_neg one, if_pos all, Bool.eq_iff_iff, List.all_eq_true]
    constructor
    · intro ready
      rw [← uniform k]
      exact ready k (List.mem_finRange k)
    · intro ready j _
      rw [uniform j, ready]

/-- Without a mixed broadcast the data movers a write addresses answer like the port. -/
theorem dmcfgWready_of_addressed (calm : ¬s.MixedBroadcast i) (write : i.cfgWrite = true)
    {k : Fin S.NumSsrs} (strobe : dmcfgStrobe i.cfgWord k = true) :
    s.dmcfgWready k = s.cfgWready i := by
  by_cases all : dmcfgUpperAddr i.cfgWord = BitVec.allOnes 5
  · have uniform : ∀ j, s.dmcfgWready j = s.dmcfgWready k := by
      intro j
      by_contra differs
      apply calm
      refine ⟨write, all, ?_⟩
      cases here : s.dmcfgWready k with
      | true => exact ⟨⟨k, here⟩, j, by rwa [here, Bool.not_eq_true] at differs⟩
      | false => exact ⟨⟨j, by rwa [here, Bool.not_eq_false] at differs⟩, k, here⟩
    exact (cfgWready_all all uniform k).symm
  · rw [dmcfgStrobe, if_neg all, decide_eq_true_iff] at strobe
    exact (cfgWready_one strobe).symm

/-- Without a mixed broadcast a write is taken exactly when it is acknowledged. -/
theorem takes_of_calm (calm : ¬s.MixedBroadcast i) (k : Fin S.NumSsrs) :
    s.takes i k = (i.cfgWrite && s.cfgWready i && dmcfgStrobe i.cfgWord k) := by
  rw [takes_eq]
  cases write : i.cfgWrite with
  | false => simp
  | true =>
    cases strobe : dmcfgStrobe i.cfgWord k with
    | false => simp
    | true => simp [dmcfgWready_of_addressed calm write strobe]

theorem takenWhenReady_iff (s : Streamer S) (i : StreamerIn S) :
    s.TakenWhenReady i ↔ ¬s.MixedBroadcast i := by
  constructor
  · rintro sound ⟨write, all, ⟨j, ready⟩, k, waits⟩
    have strobe : ∀ l, dmcfgStrobe i.cfgWord l = true := by
      intro l
      rw [dmcfgStrobe, if_pos all]
    cases port : s.cfgWready i with
    | true =>
      have taken := sound.applied port write k (strobe k)
      rw [takes_eq, waits, Bool.false_and] at taken
      exact Bool.noConfusion taken
    | false =>
      have refused := (sound.held port j).1
      rw [takes_eq, ready, write, strobe j] at refused
      exact Bool.noConfusion refused
  · intro calm
    constructor
    · intro low k
      have refused : s.takes i k = false := by
        rw [takes_of_calm calm, low, Bool.and_false, Bool.false_and]
      exact ⟨refused, next_of_not_taken refused⟩
    · intro ready write k strobe
      rw [takes_of_calm calm, ready, write, strobe]
      rfl

/-! ## Whole runs -/

/-- What a cycle shows: the write the port acknowledges, the writes the data movers
take, and what each of them shows. -/
structure Obs (S : StreamerParts) where
  acknowledged : Option (BitVec 12 × BitVec 32)
  taken : ∀ _ : Fin S.NumSsrs, Option CfgWrite
  mover : ∀ k, SnitchSsr.Obs (S.SsrCfgs k)

def machine (S : StreamerParts) : Machine (Streamer S) (StreamerIn S) (Obs S) where
  obs s i :=
    { acknowledged := if i.cfgWrite && s.cfgWready i then some (i.cfgWord, i.cfgWdata) else none
      taken := fun k => if s.takes i k then some (dmcfgWord i.cfgWord, i.cfgWdata) else none
      mover := fun k => (SnitchSsr.machine _ _).obs (s.ssr k) (i.ssrIn k) }
  next := next

def acknowledgedWrites (past : List (Obs S)) : List (BitVec 12 × BitVec 32) :=
  past.filterMap Obs.acknowledged

def takenWrites (k : Fin S.NumSsrs) (past : List (Obs S)) : List CfgWrite :=
  past.filterMap fun o => o.taken k

/-- What the address generator of a data mover showed. -/
def generated (k : Fin S.NumSsrs) (past : List (Obs S)) : List (AddrGen.Obs (S.SsrCfgs k)) :=
  past.map fun o => (o.mover k).gen

/-- A write as a data mover it addresses receives it. -/
def addressed (k : Nat) (w : BitVec 12 × BitVec 32) : Option CfgWrite :=
  if dmcfgStrobe w.1 k then some (dmcfgWord w.1, w.2) else none

/-- No broadcast meets data movers with and without a waiting job. -/
def calm : Machine.Env (Streamer S) (StreamerIn S) (Obs S) := fun _ s i => ¬s.MixedBroadcast i

instance (past : List (Obs S)) (s : Streamer S) (i : StreamerIn S) : Decidable (calm past s i) :=
  inferInstanceAs (Decidable (¬_))

/-- A data mover after a run: it has taken the acknowledged writes addressed to it,
its shadow registers are theirs, each launch among them is one accepted job, and
its jobs run one after the other. -/
structure Applied (k : Fin S.NumSsrs) (past : List (Obs S)) (s : Streamer S) : Prop where
  taken : takenWrites k past = (acknowledgedWrites past).filterMap (addressed k)
  regs : (s.ssr k).agen.regsS = JobRegs.writes (.zero _) (takenWrites k past)
  jobs : AddrGen.acceptedJobs (generated k past) = AddrGen.launches (.zero _) (takenWrites k past)
  kept : AddrGen.JobsKept (generated k past) (s.ssr k).agen

theorem applied_init (k : Fin S.NumSsrs) : Applied k [] (init S) :=
  ⟨rfl, rfl, rfl, AddrGen.jobsKept_init⟩

theorem takenWrites_concat (k : Fin S.NumSsrs) (past : List (Obs S)) (s : Streamer S)
    (i : StreamerIn S) : takenWrites k (past ++ [(machine S).obs s i]) = takenWrites k past ++
      if s.takes i k then [(dmcfgWord i.cfgWord, i.cfgWdata)] else [] := by
  exact filterMap_shown (by rfl) _

theorem acknowledgedWrites_concat (past : List (Obs S)) (s : Streamer S) (i : StreamerIn S) :
    acknowledgedWrites (past ++ [(machine S).obs s i]) = acknowledgedWrites past ++
      if i.cfgWrite && s.cfgWready i then [(i.cfgWord, i.cfgWdata)] else [] := by
  exact filterMap_shown (by rfl) _

theorem generated_concat (k : Fin S.NumSsrs) (past : List (Obs S)) (s : Streamer S)
    (i : StreamerIn S) : generated k (past ++ [(machine S).obs s i]) = generated k past ++
      [(AddrGen.machine (S.ag k)).obs (s.ssr k).agen (i.ssrIn k).ag] := List.map_append

theorem Applied.next {k : Fin S.NumSsrs} {past : List (Obs S)} {s : Streamer S}
    (before : Applied k past s) {i : StreamerIn S} (quiet : ¬s.MixedBroadcast i) :
    Applied k (past ++ [(machine S).obs s i]) (s.next i) where
  taken := by
    rw [takenWrites_concat, acknowledgedWrites_concat, List.filterMap_append, before.taken,
      takes_of_calm quiet]
    congr 1
    cases i.cfgWrite && s.cfgWready i with
    | false => rfl
    | true =>
      show _ = List.filterMap _ [_]
      rw [List.filterMap_cons, addressed]
      cases dmcfgStrobe i.cfgWord k <;> rfl
  regs := by
    have next : ((s.next i).ssr k).agen.regsS = (s.ssr k).agen.regsD (i.ssrIn k).ag := rfl
    rw [takenWrites_concat, JobRegs.writes_append, ← before.regs, next, AddrGen.regsD]
    show (if s.takes i k then _ else _) = _
    cases s.takes i k <;> rfl
  jobs := by
    rw [generated_concat, AddrGen.acceptedJobs_concat, before.jobs, takenWrites_concat,
      AddrGen.launches_append, ← before.regs, AddrGen.accepted]
    show _ ++ Option.toList (if s.takes i k then _ else none) = _
    cases s.takes i k with
    | false => rfl
    | true => exact congrArg _ (List.append_nil _).symm
  kept := by
    rw [generated_concat]
    exact before.kept.next _

/-- **Configuration writes.**  In a cycle, a write is held back by every data mover
until the port acknowledges it and is then taken by all it addresses, unless it is a
broadcast that meets some data movers with a waiting job and some without.  In a run
without such a broadcast every data mover has taken the acknowledged writes addressed
to it, once and in order, and each launch is one job of it. -/
theorem writes_taken_when_ready (S : StreamerParts) :
    (∀ (s : Streamer S) (i : StreamerIn S), s.TakenWhenReady i ↔ ¬s.MixedBroadcast i) ∧
      ∀ past s, (machine S).Reaches calm (init S) past s → ∀ k, Applied k past s := by
  refine ⟨takenWhenReady_iff, fun past s reached k => ?_⟩
  apply reached.invariant (Applied k) (applied_init k)
  intro past s i _ before quiet
  exact before.next quiet

/-! ## Two data movers -/

/-- Two streams of the default sizes. -/
abbrev pair : StreamerParts := .ofList fun _ : Fin 2 => .affine

/-- A read launched on data mover `upper`, or on both. -/
def launch (upper : BitVec 5) (ptr : BitVec 32) : StreamerIn pair where
  cfgWord := upper ++ (24 : BitVec 7)
  cfgWdata := ptr
  cfgWrite := true
  port _ := { ag := { memReady := false } }

/-- The runs of a broadcast launch that finds both data movers free: one job on each. -/
theorem writes_taken_when_ready_both :
    Applied (0 : Fin 2) ((machine pair).trace (init pair) [launch 31 64])
        ((machine pair).run (init pair) [launch 31 64]) ∧
      Applied (1 : Fin 2) ((machine pair).trace (init pair) [launch 31 64])
        ((machine pair).run (init pair) [launch 31 64]) := by
  have applied := (writes_taken_when_ready pair).2 _ _
    ((machine pair).reaches_run (init pair) [launch 31 64] (by decide))
  exact ⟨applied (0 : Fin 2), applied (1 : Fin 2)⟩

/-- Data mover 1 runs a job and has another waiting: a broadcast launch that the port
holds off starts a job on data mover 0 all the same, and one more for each cycle it
is held while there is room. -/
theorem broadcast_taken_early :
    (¬∀ (s : Streamer pair) (i : StreamerIn pair), s.TakenWhenReady i) ∧
      ¬∀ past s, (machine pair).Reaches (fun _ s i => s.Wired i) (init pair) past s →
        ∀ k, Applied k past s := by
  constructor
  · intro claim
    have held := (claim ((machine pair).run (init pair) [launch 1 64, launch 1 128])
      (launch 31 192)).held (by decide) (0 : Fin 2)
    exact absurd held.1 (by decide)
  · intro claim
    have applied := claim _ _ ((machine pair).reaches_run (init pair)
      [launch 1 64, launch 1 128, launch 31 192, launch 31 192] (by decide)) (0 : Fin 2)
    exact absurd (congrArg List.length applied.taken) (by decide)

end Streamer

end SnitchCluster.Ssr
