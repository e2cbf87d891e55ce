/-
# Ssr.Phases -- the data mover reads or writes

One queue and one credit counter serve both directions.  `ReadPhase` and
`WritePhase` say what they hold in each, `Ledger` accounts for the elements and the
accesses of the program in both.  A cycle in one direction keeps its phase
(`ReadPhase.next`, `WritePhase.next`), and the lane is acknowledged only for
accesses in that direction.
-/
import SnitchCluster.Ssr.Program

namespace SnitchCluster.Ssr.SnitchSsr

open Theory Theory.Supply

variable {C : Cfg} {P : AgParts C} {D : DmParts C}

/-! ## Accounts of both streams -/

/-- The elements against the program and the accesses made for them: `out` are the
reads fetched and not fully consumed, `wq` the values written ahead. -/
structure Ledger (T : List (Bool × Nat)) (past : List (Obs C)) (rep : Nat) (out : List Order)
    (wq : List (BitVec C.DataWidth)) : Prop where
  program : ∃ done ahead tail, elements past = done ++ out.map (Elem.mk false) ∧
    T = (elements past).map Elem.spec ++ (ahead ++ tail) ∧ (∀ e ∈ ahead, e.1 = true) ∧
    ahead.length = wq.length ∧
    (accesses past).length = (laneProgram (done.map Elem.spec)).length + rep + wq.length
  written : writtenValues past = stored past ++ wq
  stores : (stored past).length = (elements past).countP Elem.write
  behind : (responses past).length ≤ (requests past).length

namespace Ledger

variable {T : List (Bool × Nat)} {past : List (Obs C)} {rep : Nat} {out : List Order}
  {wq : List (BitVec C.DataWidth)}

theorem start (T : List (Bool × Nat)) : Ledger T ([] : List (Obs C)) 0 [] [] where
  program := ⟨[], [], T, rfl, rfl, fun _ member => absurd member List.not_mem_nil, rfl, rfl⟩
  written := rfl
  stores := rfl
  behind := Nat.le_refl _

/-- The core reads as long as a read element is not fully consumed. -/
theorem lane_reads {o : Order} {others : List Order} (ledger : Ledger T past rep (o :: others) [])
    (begun : rep ≤ o.again) : (laneProgram T)[(accesses past).length]? = some false := by
  obtain ⟨done, ahead, tail, split, all, _, _, made⟩ := ledger.program
  have spec : (Elem.mk false o).spec = (false, o.again) := rfl
  rw [all, split, made, List.map_cons, List.map_append, List.map_cons, List.append_assoc,
    List.cons_append, spec]
  exact laneProgram_read _ begun _

/-- With nothing left to consume, it accesses the element behind those written ahead. -/
theorem lane_next (ledger : Ledger T past 0 [] wq) :
    ∃ ahead tail, T = (elements past).map Elem.spec ++ (ahead ++ tail) ∧
      (∀ e ∈ ahead, e.1 = true) ∧ ahead.length = wq.length ∧
      (accesses past).length = (laneProgram ((elements past).map Elem.spec)).length + wq.length ∧
      (laneProgram T)[(accesses past).length]? = tail.head?.map Prod.fst := by
  obtain ⟨done, ahead, tail, split, all, writes, size, made⟩ := ledger.program
  rw [List.map_nil, List.append_nil] at split
  rw [Nat.add_zero, ← split] at made
  refine ⟨ahead, tail, all, writes, size, made, ?_⟩
  rw [all, made, ← size]
  exact laneProgram_ahead _ writes _

/-- Nothing is written ahead of a read. -/
theorem none_ahead (ledger : Ledger T past rep out wq)
    (reads : T[(elements past).length]?.map Prod.fst = some false) : wq = [] := by
  obtain ⟨done, ahead, tail, _, all, writes, size, _⟩ := ledger.program
  rw [all, List.getElem?_append_right (by rw [List.length_map]), List.length_map,
    Nat.sub_self] at reads
  cases ahead with
  | nil => exact List.length_eq_zero_iff.mp size.symm
  | cons e ahead =>
    rw [List.cons_append, List.getElem?_cons_zero, Option.map_some] at reads
    rw [List.forall_mem_cons] at writes
    rw [writes.1] at reads
    exact absurd (Option.some.inj reads) Bool.noConfusion

end Ledger

/-- The element taken is the next one of the program. -/
theorem program_taken {T : List (Bool × Nat)} {front rest : List (Bool × Nat)} {hs : Bool}
    {e : Bool × Nat} (all : T = front ++ rest)
    (listed : hs = true → T[front.length]? = some e) :
    ∃ rest', T = (front ++ if hs then [e] else []) ++ rest' ∧
      rest = (if hs then [e] else []) ++ rest' := by
  cases hs with
  | false => exact ⟨rest, by rw [all]; simp, rfl⟩
  | true =>
    have here := listed rfl
    rw [all, List.getElem?_append_right (Nat.le_refl _), Nat.sub_self] at here
    cases rest with
    | nil => exact absurd here.symm (Option.some_ne_none _)
    | cons f rest =>
      obtain rfl : f = e := Option.some.inj here
      exact ⟨rest, by rw [all]; simp, rfl⟩

theorem specs_concat (past : List (Obs C)) (s : SnitchSsr P D) (i : SsrIn C) :
    (elements (past ++ [(machine P D).obs s i])).map Elem.spec =
      (elements past).map Elem.spec ++
        if s.agen.memHs i.ag then [(s.agen.memWrite, jobRep past)] else [] := by
  rw [elements_concat, List.map_append]
  cases s.agen.memHs i.ag <;> rfl

theorem behind_concat {past : List (Obs C)} {s : SnitchSsr P D} {i : SsrIn C}
    (behind : (responses past).length ≤ (requests past).length)
    (answers : i.pValid = true → (responses past).length < (requests past).length) :
    (responses (past ++ [(machine P D).obs s i])).length ≤
      (requests (past ++ [(machine P D).obs s i])).length := by
  rw [requests_concat, responses_concat, List.length_append, List.length_append]
  cases valid : i.pValid with
  | false => exact Nat.le_trans behind (Nat.le_add_right _ _)
  | true => exact Nat.le_trans (answers valid) (Nat.le_add_right _ _)

/-- One value is stored for every write element. -/
theorem stores_concat {past : List (Obs C)} {s : SnitchSsr P D} {i : SsrIn C}
    (wired : s.Wired i) (filled : WritesFilled s i)
    (stores : (stored past).length = (elements past).countP Elem.write) :
    (stored (past ++ [(machine P D).obs s i])).length =
      (elements (past ++ [(machine P D).obs s i])).countP Elem.write := by
  rw [stored_concat, elements_concat, granted_eq wired filled, List.length_append,
    List.countP_append, stores]
  cases hs : s.agen.memHs i.ag with
  | false => rfl
  | true =>
    cases write : s.agen.memWrite with
    | false => rw [Bool.and_false]; rfl
    | true => rw [filled hs write]; rfl

theorem length_accesses_concat (past : List (Obs C)) (s : SnitchSsr P D) (i : SsrIn C) :
    (accesses (past ++ [(machine P D).obs s i])).length =
      (accesses past).length + (s.dm.laneHs (s.dmIn i)).toNat := by
  rw [accesses_concat, List.length_append]
  cases s.dm.laneHs (s.dmIn i) <;> rfl

/-! ## Reading -/

/-- The data mover serves the read elements; all that is on its way are reads. -/
structure ReadPhase (past : List (Obs C)) (s : SnitchSsr P D) (out : List Order) : Prop where
  reading : DataMover.Reading s.dm (readOrders past) (readResponses past) (readValues past) out
  flight : (pending past).length + (D.fifo.contents s.dm.fifo).length = needs out
  reads : ∀ r ∈ pending past, r.write = false
  direction : out ≠ [] → s.dm.agenWriteQ = false

namespace ReadPhase

variable {T : List (Bool × Nat)} {past : List (Obs C)} {s : SnitchSsr P D} {out : List Order}
  (phase : ReadPhase past s out) (ledger : Ledger T past s.dm.rep.toNat out [])
  (mode : s.writing = false) {i : SsrIn C} (admitted : orderly P D T past s i)

/-- The reads outstanding after a cycle. -/
def outNext (past : List (Obs C)) (s : SnitchSsr P D) (i : SsrIn C) (out : List Order) :
    List Order :=
  (if s.dm.creditGive (s.dmIn i) then out.tail else out) ++
    if s.agen.memHs i.ag then [⟨(s.agen.memElem i.ag).zero, jobRep past⟩] else []

include phase

/-- The element at hand is finished when the register says so. -/
theorem agrees (held : RepeatAgrees past s i) (mode : s.writing = false)
    (hs : s.dm.laneHs (s.dmIn i) = true) :
    ∀ o ∈ out.head?, (s.dm.repDone (s.dmIn i) = true ↔ s.dm.rep.toNat = o.again) := by
  intro o first
  have agree := held mode hs o (by rwa [outstandingReads, phase.reading.outstanding_eq])
  rw [← agree]
  exact beq_iff_eq

/-- A response finds its element unfilled. -/
theorem answered (behind : (responses past).length ≤ (requests past).length)
    (more : (responses past).length < (requests past).length) :
    (readResponses past).length < needs (readOrders past) := by
  have balance := phase.reading.window.balance
  have size := length_pending behind
  have flight := phase.flight
  omega

include ledger

/-- **Reading, the lane is acknowledged only for a read.** -/
theorem lane_reads (mode : s.writing = false) (program : program P D T past s i)
    (hs : s.dm.laneHs (s.dmIn i) = true) : i.laneWrite = false := by
  obtain ⟨o, others, _, first, _⟩ := phase.reading.served_of_laneHs (i := s.dmIn i) mode hs
  subst first
  have here := ledger.lane_reads (phase.reading.begun rfl)
  rw [DataMover.laneHs, Bool.and_eq_true] at hs
  have asked := program.2.2.2.2 hs.1
  rw [here] at asked
  exact (Option.some.inj asked).symm

include mode admitted

/-- The accounts after a cycle of reading. -/
theorem ledger_next : Ledger T (past ++ [(machine P D).obs s i]) (s.next i).dm.rep.toNat
    (outNext past s i out) [] := by
  obtain ⟨program, _, _, filled, held⟩ := admitted
  have lane := phase.lane_reads ledger mode program
  obtain ⟨wired, _, answers, listed, _⟩ := program
  have direction : s.agen.memHs i.ag = true → s.agen.memWrite = false := by
    intro hs
    exact (writing_of_memHs wired hs).symm.trans mode
  obtain ⟨done, ahead, tail, split, all, _, size, made⟩ := ledger.program
  have none : ahead = [] := List.length_eq_zero_iff.mp size
  rw [none, List.nil_append] at all
  obtain ⟨rest, all', _⟩ := program_taken all (by rwa [List.length_map])
  rw [← specs_concat] at all'
  have grown : elements (past ++ [(machine P D).obs s i]) = elements past ++
      (if s.agen.memHs i.ag then [⟨(s.agen.memElem i.ag).zero, jobRep past⟩] else []).map
        (Elem.mk false) := by
    rw [elements_concat]
    cases hs : s.agen.memHs i.ag with
    | false => rfl
    | true => rw [direction hs]; rfl
  rw [grown, split] at all'
  refine ⟨?_, ?_, stores_concat wired filled ledger.stores, behind_concat ledger.behind answers⟩
  · rw [length_accesses_concat, made]
    show ∃ done ahead tail, _ = done ++ List.map (Elem.mk false) (outNext past s i out) ∧ _
    rw [outNext, DataMover.Reading.creditGive_eq (i := s.dmIn i) mode, grown, split,
      show (s.next i).dm.rep = _ from DataMover.Reading.rep_next (i := s.dmIn i) mode]
    by_cases hs : s.dm.laneHs (s.dmIn i) = true
    · obtain ⟨o, others, _, first, _⟩ :=
        phase.reading.served_of_laneHs (i := s.dmIn i) mode hs
      have agree := phase.agrees held mode hs o (first ▸ rfl)
      by_cases last : s.dm.repDone (s.dmIn i) = true
      · -- the element at hand is finished
        refine ⟨done ++ [⟨false, o⟩], [], rest, ?_, ?_, by simp, rfl, ?_⟩
        · simp [hs, last, first]
        · exact all'
        · have spec : (Elem.mk false o).spec = (false, o.again) := rfl
          have accesses : laneProgram [(false, o.again)] = List.replicate (o.again + 1) false := by
            simp [laneProgram]
          have count := agree.mp last
          rw [List.map_append, List.map_singleton, spec, laneProgram_append, accesses]
          simp [hs, last]
          omega
      · obtain ⟨_, count⟩ := phase.reading.unfinished first agree last
        rw [Bool.not_eq_true] at last
        refine ⟨done, [], rest, ?_, ?_, by simp, rfl, ?_⟩
        · simp [last]
        · exact all'
        · simp only [hs, last, if_true, if_false, Bool.false_eq_true, count]
          simp
          omega
    · rw [Bool.not_eq_true] at hs
      refine ⟨done, [], rest, ?_, ?_, by simp, rfl, ?_⟩
      · simp [hs]
      · exact all'
      · simp [hs]
  · have read : (s.dm.laneHs (s.dmIn i) && i.laneWrite) = false := by
      cases hs : s.dm.laneHs (s.dmIn i) with
      | false => rfl
      | true => exact lane hs
    have kept : ((s.dm.dataQvalid (s.dmIn i) && i.qReady) && s.agen.memWrite) = false := by
      rw [granted_eq wired filled]
      cases hs : s.agen.memHs i.ag with
      | false => rfl
      | true => rw [direction hs, Bool.and_false]
    rw [writtenValues_concat, stored_concat, read, kept, ledger.written]
    simp

/-- **A cycle of reading.** -/
theorem next (safe : s.agen.ZeroSafe) :
    ReadPhase (past ++ [(machine P D).obs s i]) (s.next i) (outNext past s i out) := by
  obtain ⟨program, _, _, filled, held⟩ := admitted
  have lane := phase.lane_reads ledger mode program
  obtain ⟨wired, _, answers, _, _⟩ := program
  have read : s.dm.dmWrite (s.dmIn i) = false := mode
  have behind := ledger.behind
  have direction : s.agen.memHs i.ag = true → s.agen.memWrite = false := by
    intro hs
    exact (writing_of_memHs wired hs).symm.trans mode
  have supplied : (s.dmIn i).pValid = true →
      (readResponses past).length < needs (readOrders past) := by
    intro valid
    exact phase.answered behind (answers valid)
  refine ⟨?_, ?_, ?_, ?_⟩
  · have after := phase.reading.next read supplied
      (fun hs => safe.element (agenHs_eq wired ▸ hs)) (phase.agrees held mode) (jobRep_lt past)
    have orders : readOrders (past ++ [(machine P D).obs s i]) = readOrders past ++
        if s.agen.memHs i.ag then [⟨(s.agen.memElem i.ag).zero, jobRep past⟩] else [] := by
      rw [readOrders_concat]
      cases hs : s.agen.memHs i.ag with
      | false => rfl
      | true => rw [direction hs]; rfl
    have values : readValues (past ++ [(machine P D).obs s i]) =
        readValues past ++ if s.dm.laneHs (s.dmIn i) then [s.dm.laneRdata] else [] := by
      rw [readValues_concat]
      cases hs : s.dm.laneHs (s.dmIn i) with
      | false => rfl
      | true => rw [lane hs]; rfl
    have supply := readResponses_concat (s := s) (i := i) behind answers phase.reads
    rw [Bool.not_false, Bool.and_true] at supply
    rw [orders, values, supply]
    rw [agenHs_eq wired] at after
    exact after
  · have count := phase.reading.length_fifo_next read supplied
    have taken := phase.reading.needs_next read
    have flight := phase.flight
    have size := length_pending behind
    have granted := granted_eq wired filled
    rw [pending_concat behind answers, granted, outNext, needs_append, List.length_append]
    have issue : (if s.agen.memHs i.ag && !(s.agen.memElem i.ag).zero then
        [(⟨s.agen.memWrite, D.fifo.data s.dm.fifo⟩ : Access C)] else []).length =
        needs (if s.agen.memHs i.ag then [⟨(s.agen.memElem i.ag).zero, jobRep past⟩] else []) := by
      cases s.agen.memHs i.ag <;> cases (s.agen.memElem i.ag).zero <;> rfl
    have answer : (if i.pValid then (pending past).tail else pending past).length +
        (s.dmIn i).pValid.toNat = (pending past).length := by
      show _ + i.pValid.toNat = _
      cases valid : i.pValid with
      | false => rfl
      | true =>
        have more := answers valid
        simp
        omega
    show _ + (D.fifo.contents (s.dm.next (s.dmIn i)).fifo).length = _
    omega
  · intro r member
    rw [pending_concat behind answers, granted_eq wired filled] at member
    rcases List.mem_append.mp member with old | new
    · apply phase.reads
      split at old
      · exact List.mem_of_mem_tail old
      · exact old
    · split at new
      · rename_i granted
        rw [List.mem_singleton.mp new]
        exact direction (Bool.and_eq_true _ _ ▸ granted).1
      · exact absurd new List.not_mem_nil
  · intro some
    show (if s.dm.agenHs (s.dmIn i) then s.agen.memWrite else s.dm.agenWriteQ) = false
    rw [agenHs_eq wired]
    split
    · rename_i hs
      exact direction hs
    · rename_i waits
      apply phase.direction
      intro none
      apply some
      rw [outNext, none, if_neg waits]
      simp

end ReadPhase

/-! ## Writing -/

/-- The data mover stores the values `wq`; all that is on its way are writes. -/
structure WritePhase (past : List (Obs C)) (s : SnitchSsr P D) (wq : List (BitVec C.DataWidth)) :
    Prop where
  window : Window 0 (readOrders past) (readResponses past) (readValues past) [] [] 0
  rep : s.dm.rep = 0
  zeros : C.IsectMaster = true → D.zeroFifo.contents s.dm.zeroFifo = []
  queued : D.fifo.contents s.dm.fifo = wq
  writes : ∀ r ∈ pending past, r.write = true
  credit : s.dm.credit.toNat + (pending past).length = C.DataCredits
  direction : pending past ≠ [] → s.dm.agenWriteQ = true

namespace WritePhase

section Wires

variable {s : SnitchSsr P D} {i : SsrIn C} (mode : s.writing = true)

include mode

/-- **Writing, the lane is acknowledged only for a write.** -/
theorem lane_writes (waits : ReadsWait s i) (hs : s.dm.laneHs (s.dmIn i) = true) :
    i.laneWrite = true := by
  rw [DataMover.laneHs_writing (show s.dm.dmWrite (s.dmIn i) = true from mode), Bool.and_eq_true,
    Bool.not_eq_true'] at hs
  rw [← Bool.not_eq_false]
  intro read
  rw [waits hs.1 read mode] at hs
  exact Bool.noConfusion hs.2

/-- A value is stored exactly when an address is taken. -/
theorem dataQvalid_eq (wired : s.Wired i) (filled : WritesFilled s i) :
    (s.dm.dataQvalid (s.dmIn i) && i.qReady) = s.agen.memHs i.ag := by
  rw [granted_eq wired filled]
  cases hs : s.agen.memHs i.ag with
  | false => rfl
  | true => rw [filled hs ((writing_of_memHs wired hs).symm.trans mode)]; rfl

theorem fifoPop_eq (wired : s.Wired i) (filled : WritesFilled s i) :
    s.dm.fifoPop (s.dmIn i) = s.agen.memHs i.ag := by
  rw [DataMover.fifoPop_writing (show s.dm.dmWrite (s.dmIn i) = true from mode)]
  exact dataQvalid_eq mode wired filled

theorem stocked_of_memHs (wired : s.Wired i) (filled : WritesFilled s i)
    (hs : s.agen.memHs i.ag = true) : s.dm.fifoEmpty = false ∧ 0 < s.dm.credit.toNat := by
  rw [← dataQvalid_eq mode wired filled, Bool.and_eq_true] at hs
  exact DataMover.stocked_of_dataQvalid (i := s.dmIn i) mode hs.1

end Wires

variable {T : List (Bool × Nat)} {past : List (Obs C)} {s : SnitchSsr P D}
  {wq : List (BitVec C.DataWidth)} (phase : WritePhase past s wq) {i : SsrIn C}

/-- The values written ahead after a cycle. -/
def wqNext (s : SnitchSsr P D) (i : SsrIn C) (wq : List (BitVec C.DataWidth)) :
    List (BitVec C.DataWidth) :=
  (if s.agen.memHs i.ag then wq.tail else wq) ++
    if s.dm.laneHs (s.dmIn i) then [i.laneWdata] else []

include phase

theorem exists_of_memHs (mode : s.writing = true) (wired : s.Wired i) (filled : WritesFilled s i)
    (hs : s.agen.memHs i.ag = true) :
    ∃ rest, wq = D.fifo.data s.dm.fifo :: rest := by
  have some := (stocked_of_memHs mode wired filled hs).1
  rw [DataMover.fifoEmpty_eq, phase.queued, List.isEmpty_eq_false_iff] at some
  obtain ⟨w, rest, split⟩ := List.exists_cons_of_ne_nil some
  refine ⟨rest, ?_⟩
  rw [D.fifo.lawful.data_head _ w rest (phase.queued.trans split), split]

theorem queued_next (mode : s.writing = true) (wired : s.Wired i) (filled : WritesFilled s i) :
    D.fifo.contents (s.next i).dm.fifo = wqNext s i wq := by
  have write : s.dm.dmWrite (s.dmIn i) = true := mode
  show D.fifo.contents (D.fifo.next s.dm.fifo false (s.dm.fifoPush (s.dmIn i))
    (s.dm.fifoIn (s.dmIn i)) (s.dm.fifoPop (s.dmIn i))) = _
  rw [DataMover.fifoPush_writing write, DataMover.fifoIn_writing write,
    fifoPop_eq mode wired filled, D.fifo.lawful.next, phase.queued]
  · rfl
  · intro push
    rw [DataMover.laneHs_writing write, Bool.and_eq_true, Bool.not_eq_true'] at push
    exact push.2
  · intro pop
    exact (stocked_of_memHs mode wired filled pop).1

/-- The queue of zeros rests. -/
theorem zeros_next (mode : s.writing = true) (master : C.IsectMaster = true) :
    D.zeroFifo.contents (s.next i).dm.zeroFifo = [] := by
  have write : s.dm.dmWrite (s.dmIn i) = true := mode
  have flags := phase.zeros master
  have empty : s.dm.zeroEmpty = true := by
    rw [DataMover.zeroEmpty, if_pos master]
    exact (D.zeroFifo.lawful.empty_iff _).mpr flags
  show D.zeroFifo.contents (if C.IsectMaster then D.zeroFifo.next s.dm.zeroFifo false
    (s.dm.creditTake (s.dmIn i) && !s.dm.dmWrite (s.dmIn i)) (s.dmIn i).agenZero
    (s.dm.creditGive (s.dmIn i) && !s.dm.zeroEmpty) else s.dm.zeroFifo) = []
  rw [if_pos master, write, empty, Bool.not_true, Bool.and_false, Bool.and_false,
    D.zeroFifo.lawful.next, flags]
  · rfl
  · simp
  · simp

theorem length_wqNext (mode : s.writing = true) (wired : s.Wired i) (filled : WritesFilled s i) :
    (wqNext s i wq).length + (s.agen.memHs i.ag).toNat =
      wq.length + (s.dm.laneHs (s.dmIn i)).toNat := by
  have push : (if s.dm.laneHs (s.dmIn i) then [i.laneWdata] else []).length =
      (s.dm.laneHs (s.dmIn i)).toNat := by cases s.dm.laneHs (s.dmIn i) <;> rfl
  rw [wqNext, List.length_append, push]
  cases hs : s.agen.memHs i.ag with
  | false => rfl
  | true =>
    obtain ⟨rest, split⟩ := phase.exists_of_memHs mode wired filled hs
    simp [split]
    omega

/-- The accounts after a cycle of writing. -/
theorem ledger_next (ledger : Ledger T past s.dm.rep.toNat [] wq) (mode : s.writing = true)
    (admitted : orderly P D T past s i) :
    Ledger T (past ++ [(machine P D).obs s i]) (s.next i).dm.rep.toNat [] (wqNext s i wq) := by
  obtain ⟨program, waits, _, filled, _⟩ := admitted
  obtain ⟨wired, _, answers, listed, accessed⟩ := program
  have none : s.dm.rep.toNat = 0 := by rw [phase.rep]; rfl
  have rests : (s.next i).dm.rep = s.dm.rep := DataMover.rep_writing (i := s.dmIn i) mode
  rw [none] at ledger
  rw [rests, none]
  obtain ⟨ahead, tail, all, writes, size, made, next⟩ := ledger.lane_next
  -- the value the lane hands over is the next one to be written
  have pushed : ∃ ahead' tail', ahead ++ tail = ahead' ++ tail' ∧ (∀ e ∈ ahead', e.1 = true) ∧
      ahead'.length = wq.length + (s.dm.laneHs (s.dmIn i)).toNat := by
    cases hs : s.dm.laneHs (s.dmIn i) with
    | false => exact ⟨ahead, tail, rfl, writes, size⟩
    | true =>
      have write := lane_writes mode waits hs
      rw [DataMover.laneHs, Bool.and_eq_true] at hs
      have asked := accessed hs.1
      rw [next, write] at asked
      cases tail with
      | nil => exact absurd asked.symm (Option.some_ne_none _)
      | cons e tail =>
        refine ⟨ahead ++ [e], tail, by simp, ?_, by simp [size]⟩
        rw [List.forall_mem_append]
        refine ⟨writes, ?_⟩
        intro f member
        rw [List.mem_singleton.mp member]
        exact Option.some.inj asked
  obtain ⟨ahead', tail', same, writes', size'⟩ := pushed
  rw [same] at all
  obtain ⟨rest, all', split⟩ := program_taken all (by rwa [List.length_map])
  rw [← specs_concat] at all'
  have count := phase.length_wqNext mode wired filled
  refine ⟨?_, ?_, stores_concat wired filled ledger.stores, behind_concat ledger.behind answers⟩
  · refine ⟨elements (past ++ [(machine P D).obs s i]), if s.agen.memHs i.ag then ahead'.tail
      else ahead', tail', by simp, ?_, ?_, ?_, ?_⟩
    · rw [all']
      congr 1
      cases hs : s.agen.memHs i.ag with
      | false => rw [hs] at split; exact split.symm
      | true =>
        obtain ⟨w, stored⟩ := phase.exists_of_memHs mode wired filled hs
        cases ahead' with
        | nil =>
          rw [stored, List.length_nil, List.length_cons] at size'
          omega
        | cons e ahead' =>
          rw [hs] at split
          exact (List.cons.inj split).2.symm
    · intro e member
      apply writes'
      split at member
      · exact List.mem_of_mem_tail member
      · exact member
    · cases hs : s.agen.memHs i.ag <;> simp only [hs, Bool.toNat_false, Bool.toNat_true] at count <;>
        simp <;> omega
    · have accesses : (laneProgram (if s.agen.memHs i.ag then
          [(s.agen.memWrite, jobRep past)] else [])).length = (s.agen.memHs i.ag).toNat := by
        cases hs : s.agen.memHs i.ag with
        | false => rfl
        | true =>
          have write : s.agen.memWrite = true := (writing_of_memHs wired hs).symm.trans mode
          rw [write]
          rfl
      rw [length_accesses_concat, made, specs_concat, laneProgram_append, List.length_append, accesses]
      omega
  · rw [writtenValues_concat, stored_concat, ledger.written, dataQvalid_eq mode wired filled]
    have pushes : (s.dm.laneHs (s.dmIn i) && i.laneWrite) = s.dm.laneHs (s.dmIn i) := by
      cases hs : s.dm.laneHs (s.dmIn i) with
      | false => rfl
      | true => exact lane_writes mode waits hs
    rw [pushes, wqNext]
    cases hs : s.agen.memHs i.ag with
    | false => simp
    | true =>
      obtain ⟨w, split⟩ := phase.exists_of_memHs mode wired filled hs
      have write : s.agen.memWrite = true := (writing_of_memHs wired hs).symm.trans mode
      simp [write, split]

theorem credit_next (mode : s.writing = true) (wired : s.Wired i) (filled : WritesFilled s i)
    (behind : (responses past).length ≤ (requests past).length)
    (answers : i.pValid = true → (responses past).length < (requests past).length) :
    (s.next i).dm.credit.toNat + (pending (past ++ [(machine P D).obs s i])).length =
      C.DataCredits := by
  have write : s.dm.dmWrite (s.dmIn i) = true := mode
  have total := phase.credit
  have size := length_pending behind
  have take : s.dm.creditTake (s.dmIn i) = s.agen.memHs i.ag := by
    rw [DataMover.creditTake_writing write, fifoPop_eq mode wired filled]
  have give : s.dm.creditGive (s.dmIn i) = i.pValid := DataMover.creditGive_writing write
  have inRange : Credit.InRange s.dm.credit i.pValid (s.agen.memHs i.ag) := by
    constructor
    · intro hs _
      exact (stocked_of_memHs mode wired filled hs).2
    · intro valid _
      have more := answers valid
      omega
  have count := Credit.toNat_next s.dm.credit (Credit.initial _ false) inRange
  show (s.dm.credit.next (Credit.initial _ false) (s.dm.creditGive (s.dmIn i))
    (s.dm.creditTake (s.dmIn i)) false).toNat + _ = _
  rw [give, take, pending_concat behind answers, dataQvalid_eq mode wired filled,
    List.length_append]
  have issue : (if s.agen.memHs i.ag then
      [(⟨s.agen.memWrite, D.fifo.data s.dm.fifo⟩ : Access C)] else []).length =
      (s.agen.memHs i.ag).toNat := by cases s.agen.memHs i.ag <;> rfl
  cases valid : i.pValid with
  | false =>
    rw [valid, Bool.toNat_false] at count
    rw [if_neg Bool.false_ne_true]
    omega
  | true =>
    have more := answers valid
    rw [valid, Bool.toNat_true] at count
    rw [if_pos rfl, List.length_tail]
    omega

/-- **A cycle of writing.** -/
theorem next (mode : s.writing = true) (admitted : orderly P D T past s i)
    (behind : (responses past).length ≤ (requests past).length) :
    WritePhase (past ++ [(machine P D).obs s i]) (s.next i) (wqNext s i wq) := by
  obtain ⟨⟨wired, _, answers, _, _⟩, waits, _, filled, _⟩ := admitted
  have direction : s.agen.memHs i.ag = true → s.agen.memWrite = true := by
    intro hs
    exact (writing_of_memHs wired hs).symm.trans mode
  refine ⟨?_, ?_, phase.zeros_next mode, phase.queued_next mode wired filled, ?_,
    phase.credit_next mode wired filled behind answers, ?_⟩
  · have orders : readOrders (past ++ [(machine P D).obs s i]) = readOrders past := by
      rw [readOrders_concat]
      cases hs : s.agen.memHs i.ag with
      | false => simp
      | true => simp [direction hs]
    have supply : readResponses (past ++ [(machine P D).obs s i]) = readResponses past := by
      rw [readResponses_concat behind answers phase.writes]
      simp
    have values : readValues (past ++ [(machine P D).obs s i]) = readValues past := by
      rw [readValues_concat]
      cases hs : s.dm.laneHs (s.dmIn i) with
      | false => simp
      | true => simp [lane_writes mode waits hs]
    rw [orders, supply, values]
    exact phase.window
  · show (s.dm.next (s.dmIn i)).rep = 0
    rw [DataMover.rep_writing (show s.dm.dmWrite (s.dmIn i) = true from mode)]
    exact phase.rep
  · intro r member
    rw [pending_concat behind answers, dataQvalid_eq mode wired filled] at member
    rcases List.mem_append.mp member with old | new
    · apply phase.writes
      split at old
      · exact List.mem_of_mem_tail old
      · exact old
    · split at new
      · rename_i hs
        rw [List.mem_singleton.mp new]
        exact direction hs
      · exact absurd new List.not_mem_nil
  · intro some
    show (if s.dm.agenHs (s.dmIn i) then s.agen.memWrite else s.dm.agenWriteQ) = true
    rw [agenHs_eq wired]
    split
    · rename_i hs
      exact direction hs
    · rename_i waiting
      apply phase.direction
      intro none
      apply some
      rw [pending_concat behind answers, dataQvalid_eq mode wired filled, none, if_neg waiting]
      simp

end WritePhase

end SnitchCluster.Ssr.SnitchSsr
