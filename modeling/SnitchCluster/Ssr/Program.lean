/-
# Ssr.Program -- read and write jobs on one stream

A program is the list of the elements of its jobs, each with its direction and its
repeat value; the core makes the accesses of the elements in that order.  A run
splits into two streams, the elements read and the values written.

`orderly` is what keeps a reversal of the direction in order.  `Turning` is the
state of the generator around one: as long as it differs from the data mover in
direction, the next element has the direction it has turned to.
-/
import SnitchCluster.Ssr.Composite

namespace SnitchCluster.Ssr.SnitchSsr

open Theory Theory.Supply

variable {C : Cfg} {P : AgParts C} {D : DmParts C}

/-! ## Programs -/

/-- What a program says of an element: its direction and repeat value. -/
def Elem.spec (e : Elem) : Bool × Nat := (e.write, e.order.again)

/-- The directions of the accesses a core makes for the elements of its jobs. -/
def laneProgram (T : List (Bool × Nat)) : List Bool :=
  T.flatMap fun e => if e.1 then [true] else List.replicate (e.2 + 1) false

theorem laneProgram_append (xs ys : List (Bool × Nat)) :
    laneProgram (xs ++ ys) = laneProgram xs ++ laneProgram ys := List.flatMap_append

/-- Within the accesses of a read element the core reads. -/
theorem laneProgram_read (xs : List (Bool × Nat)) {n k : Nat} (within : k ≤ n)
    (ys : List (Bool × Nat)) :
    (laneProgram (xs ++ (false, n) :: ys))[(laneProgram xs).length + k]? = some false := by
  have here : laneProgram ((false, n) :: ys) = List.replicate (n + 1) false ++ laneProgram ys :=
    rfl
  rw [laneProgram_append, List.getElem?_append_right (Nat.le_add_right _ _), Nat.add_sub_cancel_left,
    here, List.getElem?_append_left (by rw [List.length_replicate]; omega),
    List.getElem?_replicate_of_lt (by omega)]

theorem laneProgram_writes {ahead : List (Bool × Nat)} (writes : ∀ e ∈ ahead, e.1 = true) :
    laneProgram ahead = List.replicate ahead.length true := by
  induction ahead with
  | nil => rfl
  | cons e ahead ih =>
    rw [List.forall_mem_cons] at writes
    have here : laneProgram (e :: ahead) =
        (if e.1 then [true] else List.replicate (e.2 + 1) false) ++ laneProgram ahead := rfl
    rw [here, if_pos writes.1, ih writes.2]
    rfl

/-- Behind elements written ahead the core accesses the element that follows. -/
theorem laneProgram_ahead (xs : List (Bool × Nat)) {ahead : List (Bool × Nat)}
    (writes : ∀ e ∈ ahead, e.1 = true) (ys : List (Bool × Nat)) :
    (laneProgram (xs ++ (ahead ++ ys)))[(laneProgram xs).length + ahead.length]? =
      ys.head?.map Prod.fst := by
  rw [laneProgram_append, laneProgram_append, laneProgram_writes writes,
    List.getElem?_append_right (Nat.le_add_right _ _), Nat.add_sub_cancel_left,
    List.getElem?_append_right (by rw [List.length_replicate]), List.length_replicate, Nat.sub_self]
  cases ys with
  | nil => rfl
  | cons e ys =>
    have here : laneProgram (e :: ys) =
        (if e.1 then [true] else List.replicate (e.2 + 1) false) ++ laneProgram ys := rfl
    rw [here]
    cases first : e.1 with
    | true => simp [first]
    | false => simp [first, List.replicate_succ]

/-! ## The two streams of a run -/

/-- The read elements, as orders. -/
def readOrders (past : List (Obs C)) : List Order :=
  ((elements past).filter fun e => !e.write).map Elem.order

/-- The responses to read requests. -/
def readResponses (past : List (Obs C)) : List (BitVec C.DataWidth) :=
  (((requests past).zip (responses past)).filter fun a => !a.1.write).map Prod.snd

/-- The values the core has read. -/
def readValues (past : List (Obs C)) : List (BitVec C.DataWidth) :=
  ((accesses past).filter fun a => !a.write).map Access.data

/-- The values the core has written. -/
def writtenValues (past : List (Obs C)) : List (BitVec C.DataWidth) :=
  ((accesses past).filter Access.write).map Access.data

/-- The values stored. -/
def stored (past : List (Obs C)) : List (BitVec C.DataWidth) :=
  ((requests past).filter Access.write).map Access.data

/-- The requests without a response yet. -/
def pending (past : List (Obs C)) : List (Access C) :=
  unanswered (requests past) (responses past)

theorem readOrders_concat (past : List (Obs C)) (s : SnitchSsr P D) (i : SsrIn C) :
    readOrders (past ++ [(machine P D).obs s i]) = readOrders past ++
      if s.agen.memHs i.ag && !s.agen.memWrite then
        [⟨(s.agen.memElem i.ag).zero, jobRep past⟩]
      else [] := by
  rw [readOrders, elements_concat, List.filter_append, List.map_append]
  cases s.agen.memHs i.ag with
  | false => rfl
  | true => cases direction : s.agen.memWrite <;> simp [readOrders]

theorem stored_concat (past : List (Obs C)) (s : SnitchSsr P D) (i : SsrIn C) :
    stored (past ++ [(machine P D).obs s i]) = stored past ++
      if (s.dm.dataQvalid (s.dmIn i) && i.qReady) && s.agen.memWrite then
        [D.fifo.data s.dm.fifo]
      else [] := by
  rw [stored, requests_concat, List.filter_append, List.map_append]
  cases s.dm.dataQvalid (s.dmIn i) && i.qReady with
  | false => rfl
  | true => cases direction : s.agen.memWrite <;> simp [stored]

theorem readValues_concat (past : List (Obs C)) (s : SnitchSsr P D) (i : SsrIn C) :
    readValues (past ++ [(machine P D).obs s i]) = readValues past ++
      if s.dm.laneHs (s.dmIn i) && !i.laneWrite then [s.dm.laneRdata] else [] := by
  rw [readValues, accesses_concat, List.filter_append, List.map_append]
  cases s.dm.laneHs (s.dmIn i) with
  | false => rfl
  | true => cases direction : i.laneWrite <;> simp [readValues]

theorem writtenValues_concat (past : List (Obs C)) (s : SnitchSsr P D) (i : SsrIn C) :
    writtenValues (past ++ [(machine P D).obs s i]) = writtenValues past ++
      if s.dm.laneHs (s.dmIn i) && i.laneWrite then [i.laneWdata] else [] := by
  rw [writtenValues, accesses_concat, List.filter_append, List.map_append]
  cases s.dm.laneHs (s.dmIn i) with
  | false => rfl
  | true => cases direction : i.laneWrite <;> simp [writtenValues]

/-- A response answers the oldest request, and requests granted in the same cycle
are behind it. -/
theorem pending_concat {past : List (Obs C)} {s : SnitchSsr P D} {i : SsrIn C}
    (behind : (responses past).length ≤ (requests past).length)
    (answers : i.pValid = true → (responses past).length < (requests past).length) :
    pending (past ++ [(machine P D).obs s i]) =
      (if i.pValid then (pending past).tail else pending past) ++
        if s.dm.dataQvalid (s.dmIn i) && i.qReady then
          [⟨s.agen.memWrite, D.fifo.data s.dm.fifo⟩]
        else [] := by
  rw [pending, requests_concat, responses_concat]
  cases valid : i.pValid with
  | false =>
    rw [if_neg Bool.false_ne_true, if_neg Bool.false_ne_true, List.append_nil]
    exact unanswered_ask behind _
  | true =>
    rw [if_pos rfl, if_pos rfl, unanswered_ask
      (by rw [List.length_append]; exact answers valid)]
    cases oldest : unanswered (requests past) (responses past) with
    | nil =>
      have size := length_unanswered behind
      rw [oldest, List.length_nil] at size
      exact absurd (answers valid) (by omega)
    | cons r rest => rw [unanswered_answer oldest, pending, oldest, List.tail_cons]

/-- While all requests on their way have one direction, responses belong to it. -/
theorem readResponses_concat {past : List (Obs C)} {s : SnitchSsr P D} {i : SsrIn C}
    (behind : (responses past).length ≤ (requests past).length)
    (answers : i.pValid = true → (responses past).length < (requests past).length)
    {direction : Bool} (uniform : ∀ r ∈ pending past, r.write = direction) :
    readResponses (past ++ [(machine P D).obs s i]) =
      readResponses past ++ if i.pValid && !direction then [i.pData] else [] := by
  rw [readResponses, requests_concat, responses_concat, readResponses]
  cases valid : i.pValid with
  | false =>
    rw [if_neg Bool.false_ne_true, List.append_nil, zip_ask behind, Bool.false_and,
      if_neg Bool.false_ne_true, List.append_nil]
  | true =>
    rw [if_pos rfl, zip_ask (by rw [List.length_append]; exact answers valid)]
    cases oldest : unanswered (requests past) (responses past) with
    | nil =>
      have size := length_unanswered behind
      rw [oldest, List.length_nil] at size
      exact absurd (answers valid) (by omega)
    | cons r rest =>
      have same := uniform r (by rw [pending, oldest]; exact List.mem_cons_self)
      rw [zip_answer oldest, List.filter_append, List.map_append, Bool.true_and, ← same]
      cases direction : r.write <;> simp [direction]

theorem length_pending {past : List (Obs C)}
    (behind : (responses past).length ≤ (requests past).length) :
    (pending past).length + (responses past).length = (requests past).length :=
  length_unanswered behind

/-! ## The direction of a cycle -/

/-- The direction of the data mover. -/
def writing (s : SnitchSsr P D) : Bool :=
  if (s.agen.memWrite ^^ s.dm.agenWriteQ) && !s.dm.creditFull then s.dm.agenWriteQ
  else s.agen.memWrite

/-- An address is handed over only in the direction of its job. -/
theorem writing_of_memHs {s : SnitchSsr P D} {i : SsrIn C} (wired : s.Wired i)
    (hs : s.agen.memHs i.ag = true) : s.writing = s.agen.memWrite := by
  rw [← agenHs_eq wired, DataMover.agenHs, DataMover.agenReady, Bool.and_eq_true,
    Bool.and_eq_true, Bool.not_eq_true'] at hs
  exact if_neg (Bool.not_eq_true _ ▸ hs.2.1)

/-- A request is granted for every address taken, but for injected zeros. -/
theorem granted_eq {s : SnitchSsr P D} {i : SsrIn C} (wired : s.Wired i)
    (filled : s.agen.memHs i.ag = true → s.agen.memWrite = true →
      (s.agen.memElem i.ag).zero = false) :
    (s.dm.dataQvalid (s.dmIn i) && i.qReady) =
      (s.agen.memHs i.ag && !(s.agen.memElem i.ag).zero) := by
  cases mode : s.writing with
  | false =>
    rw [← agenHs_eq wired]
    exact DataMover.Reading.request_eq mode
  | true =>
    have write : s.dm.dmWrite (s.dmIn i) = true := mode
    have zero : (s.agen.memElem i.ag).zero = (s.dmIn i).agenZero := rfl
    rw [← agenHs_eq wired, zero] at filled
    rw [← agenHs_eq wired, zero]
    cases flag : (s.dmIn i).agenZero with
    | false =>
      rw [DataMover.agenHs, DataMover.agenReady, DataMover.dataQvalid, if_pos write, flag]
      cases (s.dmIn i).agenValid <;> cases s.dm.agenFlush (s.dmIn i) <;>
        simp only [Bool.false_and, Bool.true_and, Bool.and_false, Bool.not_false,
          Bool.not_true, Bool.and_true, Bool.false_eq_true, if_false]
      rfl
    | true =>
      -- a granted request would take the address with its zero flag
      rw [Bool.not_true, Bool.and_false, ← Bool.not_eq_true]
      intro granted
      rw [DataMover.dataQvalid, if_pos write] at granted
      simp only [Bool.and_eq_true] at granted
      obtain ⟨⟨⟨⟨valid, _⟩, credit⟩, flush⟩, _⟩ := granted
      have hs : s.dm.agenHs (s.dmIn i) = true := by
        rw [DataMover.agenHs, DataMover.agenReady, valid, flush, flag, if_pos rfl, credit]
        rfl
      have direction : s.agen.memWrite = true :=
        (writing_of_memHs wired (agenHs_eq wired ▸ hs)).symm.trans mode
      rw [filled hs direction] at flag
      exact Bool.noConfusion flag

/-! ## The environment -/

/-- A program on one stream: the configuration writes launch jobs whose elements are
those of `T`, the core makes their accesses in order and no others, and the memory
answers requests of earlier cycles in order. -/
def program (P : AgParts C) (D : DmParts C) (T : List (Bool × Nat)) :
    Machine.Env (SnitchSsr P D) (SsrIn C) (Obs C) :=
  fun past s i => s.Wired i ∧
    (i.ag.cfgWord = 0 → i.ag.cfgWdata.getLsbD 31 = false) ∧
    (i.pValid = true → (responses past).length < (requests past).length) ∧
    (s.agen.memHs i.ag = true →
      T[(elements past).length]? = some (s.agen.memWrite, jobRep past)) ∧
    (i.laneReady = true → (laneProgram T)[(accesses past).length]? = some i.laneWrite)

instance (T : List (Bool × Nat)) (past : List (Obs C)) (s : SnitchSsr P D) (i : SsrIn C) :
    Decidable (program P D T past s i) := inferInstanceAs (Decidable (_ ∧ _ ∧ _ ∧ _ ∧ _))

/-- The read elements fetched and not fully consumed, by the credits in use. -/
def outstandingReads (past : List (Obs C)) (s : SnitchSsr P D) : List Order :=
  (readOrders past).drop ((readOrders past).length - (C.DataCredits - s.dm.credit.toNat))

/-- The core does not read while the data mover takes values to write. -/
def ReadsWait (s : SnitchSsr P D) (i : SsrIn C) : Prop :=
  i.laneReady = true → i.laneWrite = false → s.writing = true → s.dm.fifoFull = true

/-- A job that turns the direction has an element, which is the next one. -/
def TurnsForElement (T : List (Bool × Nat)) (past : List (Obs C)) (s : SnitchSsr P D)
    (i : SsrIn C) : Prop :=
  ∀ job ∈ s.agen.started i.ag, job.config.write ≠ s.agen.memWrite →
    T[(elements past).length + (s.agen.memHs i.ag).toNat]?.map Prod.fst = some job.config.write

/-- No zero is injected into a write job. -/
def WritesFilled (s : SnitchSsr P D) (i : SsrIn C) : Prop :=
  s.agen.memHs i.ag = true → s.agen.memWrite = true → (s.agen.memElem i.ag).zero = false

/-- The repeat register in force agrees with the job of the element the lane reads. -/
def RepeatAgrees (past : List (Obs C)) (s : SnitchSsr P D) (i : SsrIn C) : Prop :=
  s.writing = false → s.dm.laneHs (s.dmIn i) = true →
    ∀ o ∈ (outstandingReads past s).head?,
      (s.dm.rep = s.agen.regs.rep ↔ s.dm.rep.toNat = o.again)

/-- A program whose core and jobs keep a reversal in order. -/
def orderly (P : AgParts C) (D : DmParts C) (T : List (Bool × Nat)) :
    Machine.Env (SnitchSsr P D) (SsrIn C) (Obs C) :=
  fun past s i => program P D T past s i ∧ ReadsWait s i ∧ TurnsForElement T past s i ∧
    WritesFilled s i ∧ RepeatAgrees past s i

instance (s : SnitchSsr P D) (i : SsrIn C) : Decidable (ReadsWait s i) :=
  inferInstanceAs (Decidable (_ → _ → _ → _))

instance (T : List (Bool × Nat)) (past : List (Obs C)) (s : SnitchSsr P D) (i : SsrIn C) :
    Decidable (TurnsForElement T past s i) :=
  inferInstanceAs (Decidable (∀ job ∈ s.agen.started i.ag, _ → _))

instance (s : SnitchSsr P D) (i : SsrIn C) : Decidable (WritesFilled s i) :=
  inferInstanceAs (Decidable (_ → _ → _))

instance (past : List (Obs C)) (s : SnitchSsr P D) (i : SsrIn C) :
    Decidable (RepeatAgrees past s i) := inferInstanceAs (Decidable (_ → _ → _))

instance (T : List (Bool × Nat)) (past : List (Obs C)) (s : SnitchSsr P D) (i : SsrIn C) :
    Decidable (orderly P D T past s i) := inferInstanceAs (Decidable (_ ∧ _ ∧ _ ∧ _ ∧ _))

/-! ## The generator around a reversal -/

/-- The next element is one of the direction the generator has turned to. -/
structure Turning (T : List (Bool × Nat)) (past : List (Obs C)) (s : SnitchSsr P D) : Prop where
  shadow : s.agen.configS.done = true → s.agen.configS.write = s.agen.config.write
  turned : s.agen.memWrite ≠ s.dm.agenWriteQ →
    T[(elements past).length]?.map Prod.fst = some s.agen.memWrite

theorem turning_init (T : List (Bool × Nat)) : Turning T [] (init P D) where
  shadow _ := rfl
  turned ne := absurd rfl ne

theorem length_elements_concat (past : List (Obs C)) (s : SnitchSsr P D) (i : SsrIn C) :
    (elements (past ++ [(machine P D).obs s i])).length =
      (elements past).length + (s.agen.memHs i.ag).toNat := by
  rw [elements_concat, List.length_append]
  cases s.agen.memHs i.ag <;> rfl

/-- A cycle that launches nothing leaves the shadow as it is. -/
theorem configD_of_done {s : SnitchSsr P D} {i : SsrIn C}
    (launches : i.ag.cfgWord = 0 → i.ag.cfgWdata.getLsbD 31 = false)
    (stays : (s.agen.configD i.ag).done = true) :
    s.agen.configD i.ag = s.agen.configS := by
  rw [AddrGen.configD] at stays ⊢
  split
  · rename_i strobe
    rw [if_pos strobe] at stays
    rw [AddrGen.statusStrobe, Bool.and_eq_true, beq_iff_eq] at strobe
    have launch : (Status.ofWord i.ag.cfgWdata).done = i.ag.cfgWdata.getLsbD 31 := rfl
    rw [launch, launches strobe.2] at stays
    exact Bool.noConfusion stays
  · rename_i other
    rw [if_neg other] at stays
    split
    · rename_i strobe
      rw [if_pos strobe] at stays
      exact Bool.noConfusion stays
    · rfl

namespace Turning

variable {T : List (Bool × Nat)} {past : List (Obs C)} {s : SnitchSsr P D}
  (turning : Turning T past s) {i : SsrIn C}

include turning

/-- Only a job that starts changes the direction of the generator. -/
theorem started_of_turned (launches : i.ag.cfgWord = 0 → i.ag.cfgWdata.getLsbD 31 = false)
    (turned : (s.agen.next i.ag).config.write ≠ s.agen.config.write) :
    ∃ job ∈ s.agen.started i.ag, job.config.write = (s.agen.next i.ag).config.write := by
  have config : (s.agen.next i.ag).config = s.agen.configNext i.ag := rfl
  cases done : s.agen.config.done with
  | false =>
    refine absurd ?_ turned
    rw [config, AddrGen.configNext, if_neg (by rw [done]; exact Bool.false_ne_true)]
    split <;> rfl
  | true =>
    have taken : (s.agen.next i.ag).config = s.agen.configD i.ag := by
      rw [config, AddrGen.configNext, if_pos done]
    cases stays : (s.agen.next i.ag).config.done with
    | false =>
      refine ⟨(s.agen.next i.ag).job, ?_, rfl⟩
      rw [AddrGen.started, done, stays]
      exact rfl
    | true =>
      refine absurd ?_ turned
      rw [taken] at stays ⊢
      have same := configD_of_done launches stays
      rw [same] at stays ⊢
      exact turning.shadow stays

/-- A direction the generator turns to is that of the next element. -/
theorem next_element (launches : i.ag.cfgWord = 0 → i.ag.cfgWdata.getLsbD 31 = false)
    (turns : TurnsForElement T past s i)
    (turned : (s.next i).agen.memWrite ≠ s.agen.memWrite) :
    T[(elements (past ++ [(machine P D).obs s i])).length]?.map Prod.fst =
      some (s.next i).agen.memWrite := by
  obtain ⟨job, started, same⟩ := turning.started_of_turned launches turned
  have next : job.config.write = (s.next i).agen.memWrite := same
  have element := turns job started (by rw [next]; exact turned)
  rwa [length_elements_concat, ← next]

theorem next (wired : s.Wired i) (launches : i.ag.cfgWord = 0 → i.ag.cfgWdata.getLsbD 31 = false)
    (turns : TurnsForElement T past s i) :
    Turning T (past ++ [(machine P D).obs s i]) (s.next i) where
  shadow free := by
    have shadow : (s.next i).agen.configS = s.agen.configSNext i.ag := rfl
    have config : (s.next i).agen.config = s.agen.configNext i.ag := rfl
    rw [shadow, AddrGen.configSNext] at free ⊢
    rw [config, AddrGen.configNext]
    cases done : s.agen.config.done with
    | true => rfl
    | false =>
      rw [done, if_neg Bool.false_ne_true] at free
      rw [if_neg Bool.false_ne_true, if_neg Bool.false_ne_true]
      have same := configD_of_done launches free
      have running : (if s.agen.memPtrHs i.ag then
          { s.agen.config with done := (s.agen.memElem i.ag).last || s.agen.memKill i.ag }
          else s.agen.config).write = s.agen.config.write := by split <;> rfl
      rw [same] at free ⊢
      exact (turning.shadow free).trans running.symm
  turned ne := by
    have register : (s.next i).dm.agenWriteQ =
        if s.dm.agenHs (s.dmIn i) then s.agen.memWrite else s.dm.agenWriteQ := rfl
    by_cases turned : (s.next i).agen.memWrite = s.agen.memWrite
    · rw [turned, register, agenHs_eq wired] at ne
      cases hs : s.agen.memHs i.ag with
      | true =>
        rw [hs] at ne
        exact absurd rfl ne
      | false =>
        rw [hs, if_neg Bool.false_ne_true] at ne
        rw [length_elements_concat, hs, turned]
        exact turning.turned ne
    · exact turning.next_element launches turns turned

end Turning

end SnitchCluster.Ssr.SnitchSsr
