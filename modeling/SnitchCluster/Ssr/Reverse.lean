/-
# Ssr.Reverse -- when a reversal of the direction corrupts neither stream

A reversal waits until all credits are back.  While it waits the lane is still
served in the old direction, and the lane handshake does not say which direction
the core wants: `lane_write_o` of the register switch is not connected.  A core
that reads while the data mover still writes has its read acknowledged as a write.

Apart from that the streams are sound: the data mover turns only with nothing on
its way (`ReadPhase.turn`, `WritePhase.turn`), and `streams_uncorrupted` is what
holds in every orderly run.
-/
import SnitchCluster.Ssr.Phases

namespace SnitchCluster.Ssr.SnitchSsr

open Theory Theory.Supply

variable {C : Cfg} {P : AgParts C} {D : DmParts C}

/-! ## Reversals -/

/-- The data mover turns with the generator, when all credits are back. -/
theorem turned_of_writing {s : SnitchSsr P D} (against : s.writing ≠ s.dm.agenWriteQ) :
    s.agen.memWrite = s.writing ∧ s.dm.credit.toNat = C.DataCredits := by
  rw [← Credit.full_iff]
  show _ ∧ s.dm.creditFull = true
  rw [writing] at against ⊢
  cases flush : (s.agen.memWrite ^^ s.dm.agenWriteQ) && !s.dm.creditFull with
  | true =>
    rw [flush] at against
    exact absurd rfl against
  | false =>
    rw [flush, if_neg Bool.false_ne_true] at against
    refine ⟨rfl, ?_⟩
    have apart : (s.agen.memWrite ^^ s.dm.agenWriteQ) = true := by simpa using against
    rw [apart, Bool.true_and, Bool.not_eq_false'] at flush
    exact flush

/-- With all credits back, it has the direction of the generator. -/
theorem writing_of_full {s : SnitchSsr P D} (full : s.dm.credit.toNat = C.DataCredits) :
    s.writing = s.agen.memWrite := by
  have back : s.dm.creditFull = true := (Credit.full_iff _).mpr full
  rw [writing, back, Bool.not_true, Bool.and_false, if_neg Bool.false_ne_true]

theorem ReadPhase.turn {past : List (Obs C)} {s : SnitchSsr P D} {out : List Order}
    (phase : ReadPhase past s out) (mode : s.writing = true) : out = [] ∧ WritePhase past s [] := by
  have reading := phase.reading
  have none : out = [] := by
    by_contra some
    have before := phase.direction some
    have full := (turned_of_writing (s := s) (by rw [mode, before]; exact Bool.noConfusion)).2
    have total := reading.credit
    exact some (List.length_eq_zero_iff.mp (by omega))
  subst none
  have flight := phase.flight
  rw [needs_nil] at flight
  have answered : pending past = [] := List.length_eq_zero_iff.mp (by omega)
  have empty : D.fifo.contents s.dm.fifo = [] := List.length_eq_zero_iff.mp (by omega)
  have total := reading.credit
  have rep : s.dm.rep.toNat = 0 := by
    rcases reading.window.partway with none | ⟨x, n, rest, served, _⟩
    · exact none
    · exact absurd served.symm (List.cons_ne_nil _ _)
  have window := reading.window
  rw [empty, rep] at window
  refine ⟨rfl, window, ?_, reading.zeros, empty, ?_, ?_, ?_⟩
  · exact BitVec.eq_of_toNat_eq rep
  · simp [answered]
  · rw [answered]
    exact total
  · simp [answered]

theorem WritePhase.turn {past : List (Obs C)} {s : SnitchSsr P D}
    (phase : WritePhase past s []) (mode : s.writing = false) : ReadPhase past s [] := by
  have total := phase.credit
  have answered : pending past = [] := by
    by_contra some
    have before := phase.direction some
    have full := (turned_of_writing (s := s) (by rw [mode, before]; exact Bool.noConfusion)).2
    exact some (List.length_eq_zero_iff.mp (by omega))
  rw [answered, List.length_nil] at total
  have window := phase.window
  refine ⟨⟨?_, phase.zeros, ?_, ?_, total, ?_⟩, ?_, ?_, ?_⟩
  · rw [phase.queued, phase.rep]
    exact window
  · simp
  · simp [phase.queued]
  · simp
  · simp [answered, phase.queued]
  · simp [answered]
  · simp

/-- The state of an orderly program: it reads or it writes. -/
structure Sound (T : List (Bool × Nat)) (past : List (Obs C)) (s : SnitchSsr P D) : Prop where
  phase : (s.writing = false ∧ ∃ out, Ledger T past s.dm.rep.toNat out [] ∧ ReadPhase past s out) ∨
    (s.writing = true ∧ ∃ wq, Ledger T past s.dm.rep.toNat [] wq ∧ WritePhase past s wq)
  turning : Turning T past s
  safe : s.agen.ZeroSafe

theorem sound_init (T : List (Bool × Nat)) : Sound T [] (init P D) where
  phase := by
    refine Or.inl ⟨by rw [writing]; exact ite_self _, [], Ledger.start T,
      (DataMover.drained_init D).reading, ?_, ?_, ?_⟩
    · have empty : D.fifo.contents (init P D).dm.fifo = [] := D.fifo.lawful.init
      simp [empty, pending, unanswered, requests]
    · simp [pending, unanswered, requests]
    · simp
  turning := turning_init T
  safe := AddrGen.zeroSafe_init P

/-- **The data mover turns to reading only when all values written are stored.** -/
theorem stored_of_turned {T : List (Bool × Nat)} {past : List (Obs C)} {s : SnitchSsr P D}
    {i : SsrIn C} (turning : Turning T past s) (mode : s.writing = true)
    (admitted : orderly P D T past s i) {rep : Nat} {wq : List (BitVec C.DataWidth)}
    (ledger : Ledger T (past ++ [(machine P D).obs s i]) rep [] wq)
    (phase : WritePhase (past ++ [(machine P D).obs s i]) (s.next i) wq)
    (turned : (s.next i).writing = false) : wq = [] := by
  obtain ⟨⟨wired, launches, _⟩, _, turns, _⟩ := admitted
  apply ledger.none_ahead
  have register : (s.next i).dm.agenWriteQ =
      if s.dm.agenHs (s.dmIn i) then s.agen.memWrite else s.dm.agenWriteQ := rfl
  cases before : (s.next i).dm.agenWriteQ with
  | true =>
    -- the generator has turned to reading
    have reads : (s.next i).agen.memWrite = false :=
      (turned_of_writing (by rw [turned, before]; exact Bool.noConfusion)).1.trans turned
    have after := (turning.next wired launches turns).turned
      (by rw [reads, before]; exact Bool.noConfusion)
    rw [after, reads]
  | false =>
    -- no write was issued, and the generator turns back
    have answered : pending (past ++ [(machine P D).obs s i]) = [] := by
      by_contra some
      rw [phase.direction some] at before
      exact Bool.noConfusion before
    have total := phase.credit
    rw [answered, List.length_nil] at total
    have reads : (s.next i).agen.memWrite = false := (writing_of_full total).symm.trans turned
    rw [register, agenHs_eq wired] at before
    have writes : s.agen.memWrite = true := by
      cases hs : s.agen.memHs i.ag with
      | true => exact (writing_of_memHs wired hs).symm.trans mode
      | false =>
        rw [hs, if_neg Bool.false_ne_true] at before
        exact (turned_of_writing (by rw [mode, before]; exact Bool.noConfusion)).1.trans mode
    have after := turning.next_element launches turns
      (by rw [reads, writes]; exact Bool.noConfusion)
    rw [after, reads]

theorem Sound.next {T : List (Bool × Nat)} {past : List (Obs C)} {s : SnitchSsr P D}
    (sound : Sound T past s) {i : SsrIn C} (admitted : orderly P D T past s i) :
    Sound T (past ++ [(machine P D).obs s i]) (s.next i) where
  phase := by
    rcases sound.phase with ⟨mode, out, ledger, phase⟩ | ⟨mode, wq, ledger, phase⟩
    · have accounts := phase.ledger_next ledger mode admitted
      have after := phase.next ledger mode admitted sound.safe
      cases turned : (s.next i).writing with
      | false => exact Or.inl ⟨rfl, _, accounts, after⟩
      | true =>
        obtain ⟨none, writes⟩ := after.turn turned
        rw [none] at accounts
        exact Or.inr ⟨rfl, [], accounts, writes⟩
    · have accounts := phase.ledger_next ledger mode admitted
      have after := phase.next mode admitted ledger.behind
      cases turned : (s.next i).writing with
      | true => exact Or.inr ⟨rfl, _, accounts, after⟩
      | false =>
        have none := stored_of_turned sound.turning mode admitted accounts after turned
        rw [none] at accounts after
        exact Or.inl ⟨rfl, [], accounts, after.turn turned⟩
  turning := sound.turning.next admitted.1.1 admitted.1.2.1 admitted.2.2.1
  safe := sound.safe.next i.ag

/-- **Neither stream is corrupted.** -/
structure Uncorrupted (env : Machine.Env (SnitchSsr P D) (SsrIn C) (Obs C))
    (past : List (Obs C)) (s : SnitchSsr P D) : Prop where
  -- the core reads the elements of the read jobs, all of them once none is on its way
  reads : readValues past <+: expected 0 (readOrders past) (readResponses past)
  complete : s.dm.credit.toNat = C.DataCredits →
    readValues past = expected 0 (readOrders past) (readResponses past)
  -- every write element stores the value written for it
  stores : stored past = (writtenValues past).take ((elements past).countP Elem.write)
  -- accesses and responses find the data mover in their own direction
  lane : ∀ i, env past s i → s.dm.laneHs (s.dmIn i) = true → i.laneWrite = s.writing
  response : ∀ i, env past s i → i.pValid = true →
    ∀ r ∈ (pending past).head?, r.write = s.writing

theorem Sound.uncorrupted {T : List (Bool × Nat)} {past : List (Obs C)} {s : SnitchSsr P D}
    (sound : Sound T past s) : Uncorrupted (orderly P D T) past s := by
  have taken : ∀ {rep out wq}, Ledger T past rep out wq →
      stored past = (writtenValues past).take ((elements past).countP Elem.write) := by
    intro rep out wq ledger
    rw [← ledger.stores, ledger.written]
    exact List.take_left.symm
  rcases sound.phase with ⟨mode, out, ledger, phase⟩ | ⟨mode, wq, ledger, phase⟩
  · refine ⟨phase.reading.window.prefix_expected, ?_, taken ledger, ?_, ?_⟩
    · intro full
      have total := phase.reading.credit
      have none : out = [] := List.length_eq_zero_iff.mp (by omega)
      subst none
      exact phase.reading.window.finished
    · intro i admitted hs
      rw [mode]
      exact phase.lane_reads ledger mode admitted.1 hs
    · intro i _ _ r oldest
      rw [mode]
      exact phase.reads r (List.mem_of_head? oldest)
  · refine ⟨phase.window.prefix_expected, fun _ => phase.window.finished, taken ledger, ?_, ?_⟩
    · intro i admitted hs
      rw [mode]
      exact WritePhase.lane_writes mode admitted.2.1 hs
    · intro i _ _ r oldest
      rw [mode]
      exact phase.writes r (List.mem_of_head? oldest)

/-- **Reversals.**  In a run of read and write jobs whose core does not read while
the data mover still takes values to write, neither stream is corrupted, provided
that every job which turns the direction has an element, that no zero is injected
into a write job, and that the repeat register agrees with the job of the element
read.  The jobs are the launches accepted. -/
theorem streams_uncorrupted {T : List (Bool × Nat)} {past : List (Obs C)} {s : SnitchSsr P D}
    (reached : (machine P D).Reaches (orderly P D T) (init P D) past s) :
    AddrGen.JobsKept (past.map Obs.gen) s.agen ∧ Uncorrupted (orderly P D T) past s := by
  have sound : Sound T past s := by
    apply reached.invariant (Sound T) (sound_init T)
    intro past s i _ before admitted
    exact before.next admitted
  exact ⟨AddrGen.jobsKept_of_reaches (generator_run reached), sound.uncorrupted⟩

/-- One element is written, then one is to be read: the value 7 is stored and the
read is launched while its response is pending. -/
def writeThenRead : List (SsrIn .affine) :=
  [{ ag := { cfgWord := 28, cfgWdata := 64, cfgWrite := true, memReady := false } },
    { ag := { memReady := false }, laneReady := true, laneWrite := true, laneWdata := 7 },
    { ag := { memReady := true }, qReady := true },
    { ag := { cfgWord := 24, cfgWdata := 128, cfgWrite := true, memReady := false } }]

/-- A core that reads when the response to the read is there reads it. -/
theorem streams_uncorrupted_turned :
    readValues ((machine (.ofList .affine) (.ofList .affine)).trace (init _ _) (writeThenRead ++
      [{ ag := { memReady := false }, pValid := true },
        { ag := { memReady := true }, qReady := true },
        { ag := { memReady := false }, pValid := true, pData := 9 },
        { ag := { memReady := false }, laneReady := true }])) = [9] :=
  ((streams_uncorrupted (T := [(true, 0), (false, 0)])
    ((machine (.ofList .affine) (.ofList .affine)).reaches_run (init _ _) _
      (by decide))).2.complete rfl).trans rfl

/-- A core that reads at once is acknowledged before the element is fetched. -/
theorem early_read_acknowledged :
    ¬∀ T past (s : SnitchSsr (.ofList .affine) (.ofList .affine)),
      (machine _ _).Reaches (program _ _ T) (init _ _) past s →
        Uncorrupted (program _ _ T) past s := by
  intro claim
  have run := claim [(true, 0), (false, 0)] _ _ ((machine _ _).reaches_run (init _ _)
    (writeThenRead ++ [{ ag := { memReady := false }, laneReady := true }]) (by decide))
  exact absurd run.reads (by decide)

end SnitchCluster.Ssr.SnitchSsr
