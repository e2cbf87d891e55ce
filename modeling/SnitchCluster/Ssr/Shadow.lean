/-
# Ssr.Shadow -- job shadowing neither loses, duplicates nor clobbers a job

The address generator keeps two copies of its registers.  A launch is taken into
the shadow copy, where it waits until the running job is done; while nothing
waits, further writes are taken too.  So the shadow is a queue of one job, and the
running copy holds the job that left it last.

`jobs_shadowed` is the invariant of every run from reset: the launches accepted
are the jobs started followed by the one that waits, and the running registers are
those of the job started last, which `running_part_unaffected` shows no
configuration write can touch.
-/
import SnitchCluster.Ssr.AddrGen

namespace SnitchCluster.Ssr.AddrGen

open Theory

variable {C : Cfg} {P : AgParts C}

/-! ## The jobs of a run -/

def acceptedJobs (past : List (Obs C)) : List (Job C) := past.filterMap Obs.accepted

def startedJobs (past : List (Obs C)) : List (Job C) := past.filterMap Obs.started

/-- How many jobs have ended. -/
def endedJobs (past : List (Obs C)) : Nat := (past.filter Obs.ended).length

/-- The job that waits in the shadow registers. -/
def waiting (s : AddrGen P) : List (Job C) :=
  if s.configS.done then [] else [⟨s.pointerS, s.configS, s.regsS⟩]

/-- The bookkeeping of jobs after a run. -/
structure JobsKept (past : List (Obs C)) (s : AddrGen P) : Prop where
  -- in acceptance order, each once
  order : acceptedJobs past = startedJobs past ++ s.waiting
  -- the running job is the last one started, as it was launched
  current : s.config.done = false → ∃ before job, startedJobs past = before ++ [job] ∧
    s.config = job.config ∧ s.regs = job.regs
  -- every started job but the running one has ended
  complete : (startedJobs past).length = endedJobs past + (!s.config.done).toNat

/-! ## Launches -/

/-- The jobs a list of configuration writes launches. -/
def launches (regs : JobRegs C) : List CfgWrite → List (Job C)
  | [] => []
  | w :: rest => (launchOf regs w.1 w.2).toList ++ launches (regs.write w.1 w.2) rest

theorem launches_append (regs : JobRegs C) (ws rest : List CfgWrite) :
    launches regs (ws ++ rest) = launches regs ws ++ launches (regs.writes ws) rest := by
  induction ws generalizing regs with
  | nil => rfl
  | cons w ws ih =>
    show _ ++ launches _ (ws ++ rest) = (_ ++ launches _ ws) ++ _
    rw [ih, List.append_assoc]
    rfl

theorem launchOf_some {regs : JobRegs C} {word : BitVec 5} {wdata : BitVec 32} {job : Job C}
    (launch : launchOf regs word wdata = some job) :
    (word = 0 ∨ word.getLsbD 4 = true) ∧ job.regs = regs ∧ job.config.done = false := by
  rw [launchOf] at launch
  split at launch
  · rename_i status
    split at launch
    · exact absurd launch.symm (Option.some_ne_none _)
    · rename_i go
      obtain rfl := Option.some.inj launch
      exact ⟨Or.inl (eq_of_beq status), rfl, Bool.not_eq_true _ ▸ go⟩
  · split at launch
    · rename_i strobe
      obtain rfl := Option.some.inj launch
      exact ⟨Or.inr strobe, rfl, rfl⟩
    · exact absurd launch.symm (Option.some_ne_none _)

/-- **A launch is taken as it was written.** -/
theorem shadow_of_accepted {s : AddrGen P} {i : AgIn C} {job : Job C}
    (accepted : s.accepted i = some job) :
    s.configS.done = true ∧ job.config.done = false ∧
      job = ⟨s.pointerD i, s.configD i, s.regsD i⟩ := by
  rw [AddrGen.accepted] at accepted
  split at accepted
  · rename_i enabled
    have free : s.configS.done = true := (Bool.and_eq_true _ _ ▸ enabled).1
    obtain ⟨status, _, goes⟩ := launchOf_some accepted
    have regs : s.regsD i = s.regsS := by
      rw [regsD, if_pos enabled, JobRegs.write_status _ status]
    refine ⟨free, goes, ?_⟩
    rw [pointerD, configD, regs, statusStrobe, aliasStrobe, enabled, Bool.true_and, Bool.true_and]
    rw [launchOf] at accepted
    split at accepted
    · rename_i zero
      split at accepted
      · exact absurd accepted.symm (Option.some_ne_none _)
      · rw [zero]
        exact (Option.some.inj accepted).symm
    · rename_i other
      rw [Bool.not_eq_true] at other
      split at accepted
      · rename_i strobe
        rw [other, strobe]
        exact (Option.some.inj accepted).symm
      · exact absurd accepted.symm (Option.some_ne_none _)
  · exact absurd accepted.symm (Option.some_ne_none _)

/-- Other writes launch nothing. -/
theorem done_of_not_accepted {s : AddrGen P} {i : AgIn C} (free : s.configS.done = true)
    (refused : s.accepted i = none) : (s.configD i).done = true := by
  rw [accepted] at refused
  rw [configD, statusStrobe, aliasStrobe]
  by_cases enabled : s.cfgWriteEna i = true
  · rw [if_pos enabled, launchOf] at refused
    rw [enabled, Bool.true_and, Bool.true_and]
    by_cases zero : (i.cfgWord == 0) = true
    · rw [if_pos zero] at refused ⊢
      split at refused
      · rename_i clear
        exact clear
      · exact absurd refused (Option.some_ne_none _)
    · rw [if_neg zero] at refused ⊢
      split at refused
      · exact absurd refused (Option.some_ne_none _)
      · rename_i strobe
        rw [if_neg strobe]
        exact free
  · rw [Bool.not_eq_true] at enabled
    rw [enabled, Bool.false_and, Bool.false_and, if_neg Bool.false_ne_true,
      if_neg Bool.false_ne_true]
    exact free

/-- While a job waits, every write is held off. -/
theorem shadow_of_waiting {s : AddrGen P} (waits : s.configS.done = false) (i : AgIn C) :
    s.accepted i = none ∧ s.pointerD i = s.pointerS ∧ s.configD i = s.configS ∧
      s.regsD i = s.regsS := by
  have off : s.cfgWriteEna i = false := by rw [cfgWriteEna, waits, Bool.false_and]
  refine ⟨?_, ?_, ?_, ?_⟩
  · rw [accepted, off, if_neg Bool.false_ne_true]
  · rw [pointerD, statusStrobe, aliasStrobe, off]
    rfl
  · rw [configD, statusStrobe, aliasStrobe, off]
    rfl
  · rw [regsD, off, if_neg Bool.false_ne_true]

/-! ## One cycle -/

/-- What the shadow logic offers in a cycle: the job that waits, or the launch
accepted now. -/
theorem offered_eq (s : AddrGen P) (i : AgIn C) :
    s.waiting ++ (s.accepted i).toList =
      if (s.configD i).done then [] else [⟨s.pointerD i, s.configD i, s.regsD i⟩] := by
  cases waits : s.configS.done with
  | false =>
    obtain ⟨refused, pointer, config, regs⟩ := shadow_of_waiting waits i
    rw [waiting, refused, pointer, config, regs, waits]
    rfl
  | true =>
    rw [waiting, waits, if_pos rfl, List.nil_append]
    cases launch : s.accepted i with
    | none => rw [done_of_not_accepted waits launch, if_pos rfl]; rfl
    | some job =>
      obtain ⟨_, goes, same⟩ := shadow_of_accepted launch
      have running : (s.configD i).done = false := by
        rw [same] at goes
        exact goes
      rw [running, if_neg Bool.false_ne_true, same]
      rfl

/-- A job is taken up as soon as none runs. -/
theorem started_eq (s : AddrGen P) (i : AgIn C) :
    (s.started i).toList =
      if s.config.done then s.waiting ++ (s.accepted i).toList else [] := by
  have config : (s.next i).config = s.configNext i := rfl
  rw [started, offered_eq]
  cases done : s.config.done with
  | false => rfl
  | true =>
    have job : (s.next i).job = ⟨s.pointerD i, s.configD i, s.regsD i⟩ := by
      have fields : (s.next i).job =
          ⟨s.pointerNext i, s.configNext i, if s.config.done then s.regsD i else s.regs⟩ := rfl
      rw [fields, pointerNext, configNext, if_pos done, if_pos done, if_pos done]
    rw [config, job, configNext, if_pos done, Bool.true_and, if_pos rfl]
    cases (s.configD i).done <;> rfl

/-- What is offered and not taken up waits. -/
theorem waiting_next (s : AddrGen P) (i : AgIn C) :
    (s.next i).waiting =
      if s.config.done then [] else s.waiting ++ (s.accepted i).toList := by
  have shadow : (s.next i).waiting =
      if (s.configSNext i).done then [] else [⟨s.pointerD i, s.configSNext i, s.regsD i⟩] := rfl
  rw [shadow, offered_eq, configSNext]
  cases s.config.done <;> rfl

/-- **Conservation.** -/
theorem jobs_next (s : AddrGen P) (i : AgIn C) :
    s.waiting ++ (s.accepted i).toList = (s.started i).toList ++ (s.next i).waiting := by
  rw [started_eq, waiting_next]
  cases s.config.done with
  | true => rw [if_pos rfl, if_pos rfl, List.append_nil]
  | false => rw [if_neg Bool.false_ne_true, if_neg Bool.false_ne_true, List.nil_append]

/-- A running job keeps its registers. -/
theorem keeps_job {s : AddrGen P} (running : s.config.done = false) (i : AgIn C)
    (stays : (s.next i).config.done = false) :
    (s.next i).config = s.config ∧ (s.next i).regs = s.regs := by
  have config : (s.next i).config = s.configNext i := rfl
  have busy : ¬s.config.done = true := Bool.not_eq_true _ ▸ running
  refine ⟨?_, if_neg busy⟩
  rw [config, configNext, if_neg busy] at stays ⊢
  split at stays
  · rename_i hs
    rw [if_pos hs]
    calc ({ s.config with done := (s.memElem i).last || s.memKill i } : Status)
        = { s.config with done := s.config.done } := by
          rw [running]
          exact congrArg (fun d => ({ s.config with done := d } : Status)) stays
      _ = s.config := rfl
  · rename_i hs
    rw [if_neg hs]

/-- A job ends only with the handshake of its last element, or of a kill. -/
theorem last_of_ended {s : AddrGen P} {i : AgIn C} (ends : s.ended i = true) :
    s.memPtrHs i = true ∧ ((s.memElem i).last = true ∨ s.memKill i = true) := by
  have config : (s.next i).config = s.configNext i := rfl
  rw [ended, Bool.and_eq_true, Bool.not_eq_true', config, configNext] at ends
  obtain ⟨running, done⟩ := ends
  rw [if_neg (Bool.not_eq_true _ ▸ running)] at done
  split at done
  · rename_i hs
    exact ⟨hs, by rwa [Bool.or_eq_true] at done⟩
  · rw [running] at done
    exact Bool.noConfusion done

/-! ## Whole runs -/

/-- Any inputs at all. -/
def anyInputs : Machine.Env (AddrGen P) (AgIn C) (Obs C) := fun _ _ _ => True

section

variable (past : List (Obs C)) (s : AddrGen P) (i : AgIn C)

include past s i

theorem acceptedJobs_concat :
    acceptedJobs (past ++ [(machine P).obs s i]) = acceptedJobs past ++ (s.accepted i).toList := by
  have shown : ((machine P).obs s i).accepted = s.accepted i := rfl
  rw [acceptedJobs, List.filterMap_append, List.filterMap_cons, List.filterMap_nil, shown]
  cases s.accepted i <;> rfl

theorem startedJobs_concat :
    startedJobs (past ++ [(machine P).obs s i]) = startedJobs past ++ (s.started i).toList := by
  have shown : ((machine P).obs s i).started = s.started i := rfl
  rw [startedJobs, List.filterMap_append, List.filterMap_cons, List.filterMap_nil, shown]
  cases s.started i <;> rfl

theorem endedJobs_concat :
    endedJobs (past ++ [(machine P).obs s i]) = endedJobs past + (s.ended i).toNat := by
  have shown : ((machine P).obs s i).ended = s.ended i := rfl
  rw [endedJobs, List.filter_append, List.length_append, List.filter_cons, shown]
  cases s.ended i <;> rfl

end

theorem jobsKept_init : JobsKept [] (init P) where
  order := rfl
  current running := Bool.noConfusion running
  complete := rfl

theorem JobsKept.next {past : List (Obs C)} {s : AddrGen P} (kept : JobsKept past s)
    (i : AgIn C) : JobsKept (past ++ [(machine P).obs s i]) (s.next i) where
  order := by
    rw [acceptedJobs_concat, startedJobs_concat, kept.order, List.append_assoc, jobs_next,
      List.append_assoc]
  current stays := by
    rw [startedJobs_concat]
    cases running : s.config.done with
    | true =>
      -- a job is taken up
      refine ⟨startedJobs past, (s.next i).job, ?_, rfl, rfl⟩
      rw [started, running, stays]
      rfl
    | false =>
      obtain ⟨before, job, last, config, regs⟩ := kept.current running
      obtain ⟨sameConfig, sameRegs⟩ := keeps_job running i stays
      refine ⟨before, job, ?_, sameConfig.trans config, sameRegs.trans regs⟩
      rw [started, running, last]
      exact List.append_nil _
  complete := by
    have count := kept.complete
    rw [startedJobs_concat, endedJobs_concat, List.length_append, count, started, ended]
    cases s.config.done <;> cases (s.next i).config.done <;> rfl

theorem jobsKept_of_reaches {past : List (Obs C)} {s : AddrGen P}
    (reached : (machine P).Reaches anyInputs (init P) past s) : JobsKept past s :=
  reached.invariant JobsKept jobsKept_init fun _ _ i _ kept _ => kept.next i

/-! ## The running job and configuration writes -/

/-- What executes a job: the running registers, the counters, the indirector and
the output stage. -/
structure Core (P : AgParts C) where
  job : Job C
  index : Fin C.NumLoops → BitVec C.IndexWidth
  natitBaseLast : Bool
  natitLastWordInflight : Bool
  indir : Indirector P.indir
  spill : P.outSpill.State

def core (s : AddrGen P) : Core P :=
  ⟨s.job, s.index, s.natitBaseLast, s.natitLastWordInflight, s.indir, s.spill⟩

/-- Two cycles that differ in their configuration writes at most. -/
structure SameMemory (i j : AgIn C) : Prop where
  memReady : i.memReady = j.memReady
  idxRsp : i.idxRsp = j.idxRsp
  isectSlvRsp : i.isectSlvRsp = j.isectSlvRsp
  isectMstRsp : i.isectMstRsp = j.isectMstRsp

/-- A running indirector does not look at the next pointer. -/
theorem indir_next_offs {Q : IndirParts C} (n : Indirector Q) {i : IndirIn C}
    (running : i.cfgDone = false) (offs : BitVec C.BytecntWidth) (memReady : Bool) :
    n.next i memReady = n.next { i with cfgOffsNext := offs } memReady := by
  have count : n.idxBytecntNext i memReady =
      n.idxBytecntNext { i with cfgOffsNext := offs } memReady := by
    simp only [Indirector.idxBytecntNext, running]
    rfl
  simp only [Indirector.next, Indirector.nextSlave, Indirector.nextFetch, count]
  rfl

theorem core_next {s : AddrGen P} (running : s.config.done = false) (i : AgIn C) :
    (s.next i).core =
      { job :=
          { pointer := if s.enable i then s.pointer + s.selectedStride i else s.pointer
            config := if s.memPtrHs i then
                { s.config with done := (s.memElem i).last || s.memKill i }
              else s.config
            regs := s.regs }
        index := s.indexNext i
        natitBaseLast := C.Indirection &&
          ffLoadClear s.natitBaseLast s.natitBaseLastD (s.enable i) s.natitDone false
        natitLastWordInflight := C.Indirection &&
          ffLoadClear s.natitLastWordInflight true (s.enable i && s.done i) s.config.done false
        indir := if C.Indirection then s.indir.next (s.indirIn i) (s.spillInReady i) else s.indir
        spill := (s.next i).spill } := by
  have busy : ¬s.config.done = true := Bool.not_eq_true _ ▸ running
  have fields : (s.next i).job =
      ⟨s.pointerNext i, s.configNext i, if s.config.done then s.regsD i else s.regs⟩ := rfl
  rw [core, fields, pointerNext, configNext, if_neg busy, if_neg busy, if_neg busy]
  rfl

/-- **No configuration write touches the running job**, nor what it shows to the
memory in the cycle. -/
theorem core_next_alike {s t : AddrGen P} (same : s.core = t.core)
    (running : s.config.done = false) {i j : AgIn C} (alike : SameMemory i j) :
    (s.next i).core = (t.next j).core ∧ s.memHs i = t.memHs j ∧ s.memElem i = t.memElem j := by
  have running' : t.config.done = false :=
    (congrArg (fun c : Core P => c.job.config.done) same).symm.trans running
  rw [core_next running i, core_next running' j, indir_next_offs s.indir running 0,
    indir_next_offs t.indir running' 0]
  obtain ⟨regs, regsS, pointer, pointerS, config, configS, index, base, word, indir, spill⟩ := s
  obtain ⟨regs', regsS', pointer', pointerS', config', configS', index', base', word', indir',
    spill'⟩ := t
  obtain ⟨wordI, wdataI, writeI, memReady, idxRsp, slvRsp, mstRsp⟩ := i
  obtain ⟨wordJ, wdataJ, writeJ, memReady', idxRsp', slvRsp', mstRsp'⟩ := j
  obtain ⟨rfl, rfl, rfl, rfl⟩ := alike
  simp only [core, job, Core.mk.injEq, Job.mk.injEq] at same
  obtain ⟨⟨rfl, rfl, rfl⟩, rfl, rfl, rfl, rfl, rfl⟩ := same
  exact ⟨rfl, rfl, rfl⟩

/-- **A job runs the same under all configuration writes**: from equal running
parts, up to the end of the job, the memory port shows the same elements. -/
theorem job_unaffected {s t : AddrGen P} (same : s.core = t.core) (u v : Nat → AgIn C)
    (alike : ∀ n, SameMemory (u n) (v n)) (n : Nat)
    (running : ∀ m < n, ((machine P).stateAt s u m).config.done = false) :
    ((machine P).stateAt s u n).core = ((machine P).stateAt t v n).core ∧
      shown ((machine P).history s u n) = shown ((machine P).history t v n) := by
  induction n with
  | zero => exact ⟨same, rfl⟩
  | succ n ih =>
    obtain ⟨cores, elements⟩ := ih fun m less => running m (Nat.lt_succ_of_lt less)
    obtain ⟨next, hs, element⟩ :=
      core_next_alike cores (running n (Nat.lt_succ_self n)) (alike n)
    refine ⟨next, ?_⟩
    rw [Machine.history, Machine.history, shown_concat, shown_concat, elements, hs, element]

/-- A read and a write launched one after the other. -/
def readThenWrite : List (AgIn .affine) :=
  [{ cfgWord := 24, cfgWdata := 64, cfgWrite := true, memReady := false },
    { cfgWord := 28, cfgWdata := 128, cfgWrite := true, memReady := false }]

end SnitchCluster.Ssr.AddrGen
