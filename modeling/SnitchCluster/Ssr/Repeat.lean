/-
# Ssr.Repeat -- when every element is repeated as its own job says

The repeat register is shadowed like the other job registers and loaded when a job
starts.  It takes effect at the other end of the datapath: the data mover compares
its repetition counter with the register as an element leaves the queue.  By then
the next job may have started with another value.

The condition is that the register and the job of the element at hand agree,
whenever the lane takes a value, on whether the element is finished.
`repeats_of_held` shows that it suffices in every run, `reprogrammed_repeat_lost`
that it can fail.
-/
import SnitchCluster.Ssr.Composite

namespace SnitchCluster.Ssr

open Theory Theory.Supply

variable {C : Cfg}

/-! ## Read jobs -/

/-- A write to the status register or an alias has the read direction. -/
def ReadsOnly (i : AgIn C) : Prop :=
  (i.cfgWord = 0 → i.cfgWdata.getLsbD 30 = false) ∧
    (i.cfgWord.getLsbD 4 = true → i.cfgWord.getLsbD 2 = false)

instance (i : AgIn C) : Decidable (ReadsOnly i) := inferInstanceAs (Decidable (_ ∧ _))

namespace AddrGen

variable {P : AgParts C}

/-- Both copies of the status register have the read direction. -/
def Reads (s : AddrGen P) : Prop := s.config.write = false ∧ s.configS.write = false

theorem write_configD {s : AddrGen P} {i : AgIn C} (before : s.configS.write = false)
    (reads : ReadsOnly i) : (s.configD i).write = false := by
  rw [configD, statusStrobe, aliasStrobe]
  split
  · rename_i strobe
    rw [Bool.and_eq_true, beq_iff_eq] at strobe
    exact reads.1 strobe.2
  · split
    · rename_i strobe
      rw [Bool.and_eq_true] at strobe
      exact reads.2 strobe.2
    · exact before

theorem Reads.next {s : AddrGen P} (before : Reads s) {i : AgIn C} (reads : ReadsOnly i) :
    Reads (s.next i) := by
  have write := write_configD before.2 reads
  have config : (s.next i).config = s.configNext i := rfl
  have shadow : (s.next i).configS = s.configSNext i := rfl
  rw [Reads, config, shadow, configNext, configSNext]
  refine ⟨?_, ?_⟩
  · split
    · exact write
    · split <;> exact before.1
  · split <;> exact write

end AddrGen

namespace SnitchSsr

variable {P : AgParts C} {D : DmParts C}

/-- Read jobs with reads on the lane, and an in-order memory: a response answers a
request of an earlier cycle. -/
def readJobs (P : AgParts C) (D : DmParts C) : Machine.Env (SnitchSsr P D) (SsrIn C) (Obs C) :=
  fun past s i => s.Wired i ∧ ReadsOnly i.ag ∧ i.laneWrite = false ∧
    (i.pValid = true → (responses past).length < (requests past).length)

instance (past : List (Obs C)) (s : SnitchSsr P D) (i : SsrIn C) :
    Decidable (readJobs P D past s i) := inferInstanceAs (Decidable (_ ∧ _ ∧ _ ∧ _))

/-- The elements fetched, as orders. -/
def fetched (past : List (Obs C)) : List Order := (elements past).map Elem.order

/-- The values the lane has taken. -/
def taken (past : List (Obs C)) : List (BitVec C.DataWidth) := (accesses past).map Access.data

/-- The elements fetched and not fully consumed, by the credits in use. -/
def outstanding (past : List (Obs C)) (s : SnitchSsr P D) : List Order :=
  (fetched past).drop ((fetched past).length - (C.DataCredits - s.dm.credit.toNat))

/-- If the lane takes a value, the repeat register in force and the repeat value of
the job that fetched the element agree on whether this is its last delivery. -/
def RepeatHeld (past : List (Obs C)) (s : SnitchSsr P D) (i : SsrIn C) : Prop :=
  s.dm.laneHs (s.dmIn i) = true →
    ∀ o ∈ (outstanding past s).head?, (s.dm.rep = s.agen.regs.rep ↔ s.dm.rep.toNat = o.again)

instance (past : List (Obs C)) (s : SnitchSsr P D) (i : SsrIn C) :
    Decidable (RepeatHeld past s i) := inferInstanceAs (Decidable (_ → _))

/-- The state of a run of read jobs. -/
structure RepeatRun (past : List (Obs C)) (s : SnitchSsr P D) : Prop where
  reading : ∃ out, DataMover.Reading s.dm (fetched past) (responses past) (taken past) out
  asked : (requests past).length = needs (fetched past)
  direction : s.dm.agenWriteQ = false
  reads : s.agen.Reads
  safe : s.agen.ZeroSafe

theorem repeatRun_init (P : AgParts C) (D : DmParts C) : RepeatRun [] (init P D) where
  reading := ⟨[], (DataMover.drained_init D).reading⟩
  asked := rfl
  direction := rfl
  reads := ⟨rfl, rfl⟩
  safe := AddrGen.zeroSafe_init P

theorem RepeatRun.next {past : List (Obs C)} {s : SnitchSsr P D} (run : RepeatRun past s)
    {i : SsrIn C} (admitted : readJobs P D past s i) (held : RepeatHeld past s i) :
    RepeatRun (past ++ [(machine P D).obs s i]) (s.next i) := by
  obtain ⟨wired, readsOnly, lane, answers⟩ := admitted
  obtain ⟨out, reading⟩ := run.reading
  have generator : (s.dmIn i).agenWrite = false := run.reads.1
  have mode : s.dm.dmWrite (s.dmIn i) = false := DataMover.dmWrite_read generator fun turned => by
    rw [run.direction] at turned
    exact Bool.noConfusion turned
  have agrees : s.dm.laneHs (s.dmIn i) = true →
      ∀ o ∈ out.head?, (s.dm.repDone (s.dmIn i) = true ↔ s.dm.rep.toNat = o.again) := by
    intro hs o first
    have agree := held hs o (by rwa [outstanding, reading.outstanding_eq])
    rw [← agree]
    exact beq_iff_eq
  have after := reading.next mode (fun valid => run.asked ▸ answers valid)
    (fun hs => run.safe.element (agenHs_eq wired ▸ hs)) agrees (jobRep_lt past)
  have orders : fetched (past ++ [(machine P D).obs s i]) = fetched past ++
      if s.dm.agenHs (s.dmIn i) then [⟨(s.dmIn i).agenZero, jobRep past⟩] else [] := by
    rw [fetched, elements_concat, List.map_append, agenHs_eq wired]
    cases s.agen.memHs i.ag <;> rfl
  have supply : responses (past ++ [(machine P D).obs s i]) = responses past ++
      if (s.dmIn i).pValid then [(s.dmIn i).pData] else [] := responses_concat past s i
  have values : taken (past ++ [(machine P D).obs s i]) = taken past ++
      if s.dm.laneHs (s.dmIn i) then [s.dm.laneRdata] else [] := by
    rw [taken, accesses_concat, List.map_append, lane]
    cases s.dm.laneHs (s.dmIn i) <;> rfl
  rw [← orders, ← supply, ← values] at after
  refine ⟨⟨_, after⟩, ?_, ?_, run.reads.next readsOnly, run.safe.next i.ag⟩
  · have granted : (s.dm.dataQvalid (s.dmIn i) && i.qReady) =
        (s.dm.agenHs (s.dmIn i) && !(s.dmIn i).agenZero) := DataMover.Reading.request_eq mode
    rw [requests_concat, orders, List.length_append, needs_append, run.asked, granted]
    cases s.dm.agenHs (s.dmIn i) <;> cases (s.dmIn i).agenZero <;> rfl
  · have register : (s.next i).dm.agenWriteQ =
        if s.dm.agenHs (s.dmIn i) then (s.dmIn i).agenWrite else s.dm.agenWriteQ := rfl
    rw [register, generator, run.direction]
    exact ite_self _

/-- **Repetition.**  In a run of read jobs in which the repeat register agrees with
the job of the element at hand whenever the lane takes a value, the lane takes the
fetched elements in order, each as often as its own job says, and all of them when
all credits are back.  The jobs are the launches accepted, with the repeat values
programmed before them. -/
theorem repeats_of_held {past : List (Obs C)} {s : SnitchSsr P D}
    (reached : (machine P D).Reaches
      (fun past s i => readJobs P D past s i ∧ RepeatHeld past s i) (init P D) past s) :
    AddrGen.JobsKept (past.map Obs.gen) s.agen ∧
      taken past <+: expected 0 (fetched past) (responses past) ∧
      (s.dm.credit.toNat = C.DataCredits →
        taken past = expected 0 (fetched past) (responses past)) := by
  have run : RepeatRun past s := reached.invariant RepeatRun (repeatRun_init P D)
    fun _ _ _ _ run admitted => run.next admitted.1 admitted.2
  obtain ⟨out, reading⟩ := run.reading
  have total := reading.credit
  refine ⟨AddrGen.jobsKept_of_reaches (generator_run reached), reading.window.prefix_expected,
    fun full => ?_⟩
  have none : out = [] := List.length_eq_zero_iff.mp (by omega)
  subst none
  exact reading.window.finished

/-- A read of one element, programmed to be repeated once, and its response. -/
def repeatedOnce : List (SsrIn .affine) :=
  [{ ag := { cfgWord := 1, cfgWdata := 1, cfgWrite := true, memReady := false } },
    { ag := { cfgWord := 24, cfgWdata := 64, cfgWrite := true, memReady := false } },
    { ag := { memReady := true }, qReady := true },
    { ag := { memReady := false }, pValid := true, pData := 7 }]

/-- Undisturbed, the lane takes the element twice. -/
theorem repeats_of_held_once :
    taken ((machine (.ofList .affine) (.ofList .affine)).trace (init _ _) (repeatedOnce ++
      [{ ag := { memReady := false }, laneReady := true },
        { ag := { memReady := false }, laneReady := true }])) = [7, 7] :=
  ((repeats_of_held ((machine (.ofList .affine) (.ofList .affine)).reaches_run (init _ _) _
    (by decide))).2.2 rfl).trans rfl

/-- If the next job is programmed with no repetition before the lane takes the
element, it is delivered once. -/
theorem reprogrammed_repeat_lost :
    ¬∀ past (s : SnitchSsr (.ofList .affine) (.ofList .affine)),
      (machine _ _).Reaches (readJobs _ _) (init _ _) past s →
        s.dm.credit.toNat = 4 → taken past = expected 0 (fetched past) (responses past) := by
  intro claim
  have run := claim _ _ ((machine _ _).reaches_run (init _ _) (repeatedOnce ++
    [{ ag := { cfgWord := 1, cfgWdata := 0, cfgWrite := true, memReady := false } },
      { ag := { cfgWord := 24, cfgWdata := 128, cfgWrite := true, memReady := false },
        laneReady := true }]) (by decide)) rfl
  exact absurd run (by decide)

end SnitchSsr

end SnitchCluster.Ssr
