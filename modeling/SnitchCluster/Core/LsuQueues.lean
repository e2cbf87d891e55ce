/-
# Core.LsuQueues -- every response finds its request

The load/store unit remembers a transaction in one queue and, of those that are not
writes, tag, size, sign and offset in another.  The two are pushed and popped under
different conditions and may be of any two depths; both are bounded by what has been
issued and not yet answered (`Queued`).

`responses_matched` is what follows for the core: a load or atomic gets the answer to
its own request, in the order of issue, and the answer to a store passes unseen.
-/
import SnitchCluster.Core.Lsu
import SnitchCluster.Theory.Clocked
import SnitchCluster.Theory.Supply

namespace SnitchCluster.Core

open Theory

def LsSize.width : LsSize → Nat
  | .byte => 8
  | .halfWord => 16
  | .word => 32
  | .double => 64

/-- What is remembered of a request. -/
def LsuReq.remembered {C : Cfg} (r : LsuReq C) : Laq C :=
  { tag := r.qtag, signExt := r.qsigned, offset := r.qaddr.extractLsb' 0 C.DataAlign,
    size := r.qsize }

/-- The field of a data word that a load asks for, extended to 64 bits. -/
def Laq.extend {C : Cfg} (out : Laq C) (data : BitVec C.DataWidth) : BitVec 64 :=
  let field : BitVec out.size.width := (data >>> (8 * out.offset.toNat)).setWidth out.size.width
  if out.signExt then field.signExtend 64 else field.setWidth 64

/-- The inputs of a cycle. -/
structure LsuIn (C : Cfg) where
  req : LsuReq C
  caq : CaqReq C
  rsp : DataRsp C
  pready : Bool

namespace LsuState

variable {C : Cfg} {P : LsuParts C} (l : LsuState P) (i : LsuIn C)

/-! ## Runs -/

/-- The memory takes a request. -/
def issues : Bool := l.qValid i.req && i.rsp.qReady

/-- A response of the memory is taken. -/
def answers : Bool := i.rsp.pValid && l.pReady i.pready

/-- The core takes the result of a load. -/
def delivers : Bool := l.pvalid i.rsp && i.pready

/-- What a cycle shows: the request issued, the response taken from the memory, and the
tag and result the core takes. -/
structure Obs (C : Cfg) where
  issued : Option (LsuReq C)
  answered : Option (BitVec C.DataWidth)
  delivered : Option (BitVec C.RegWidth × BitVec 64)

variable (P) in
def machine : Machine (LsuState P) (LsuIn C) (Obs C) where
  obs l i :=
    { issued := if l.issues i then some i.req else none
      answered := if l.answers i then some i.rsp.data else none
      delivered := if l.delivers i then some (l.ptag, l.ldResult i.rsp) else none }
  next l i := l.next i.req i.caq i.rsp i.pready

section Past

variable (past : List (Obs C))

/-- The requests the memory took. -/
def issued : List (LsuReq C) := past.filterMap Obs.issued

/-- The responses taken from it. -/
def answered : List (BitVec C.DataWidth) := past.filterMap Obs.answered

/-- What the core took. -/
def delivered : List (BitVec C.RegWidth × BitVec 64) := past.filterMap Obs.delivered

/-- The requests still to be answered. -/
abbrev outstanding : List (LsuReq C) := Supply.unanswered (issued past) (answered past)

/-- The results of the answered loads. -/
def results : List (BitVec C.RegWidth × BitVec 64) :=
  ((issued past).zip (answered past)).filterMap fun f =>
    if f.1.qwrite then none else some (f.1.qtag, f.1.remembered.extend f.2)

end Past

/-- The memory answers in order, each request in a later cycle than it takes it. -/
def inOrder : Machine.Env (LsuState P) (LsuIn C) (Obs C) := fun past _ i =>
  i.rsp.pValid = true → (answered past).length < (issued past).length

instance (past : List (Obs C)) (i : LsuIn C) : Decidable (inOrder past l i) :=
  inferInstanceAs (Decidable (_ → _))

/-! ## One cycle -/

section Cycle

variable {l i}

theorem issues_eq : l.issues i = (l.postcaqQvalid i.req && l.room i.req && i.rsp.qReady) := by
  rw [issues, qValid, room, Bool.and_assoc (l.postcaqQvalid i.req)]

/-- **The core and the memory see one handshake.** -/
theorem accepts_eq_issues : (i.req.qvalid && l.qready i.req i.rsp) = l.issues i := by
  have ready : l.postcaqQready i.req i.rsp =
      (!(l.qValid i.req && !i.rsp.qReady) && l.room i.req) := by
    rw [postcaqQready, room, Bool.and_assoc]
  have valid : l.qValid i.req = (l.postcaqQvalid i.req && l.room i.req) := by
    rw [qValid, room, Bool.and_assoc]
  rw [issues_eq, qready, ready, valid, postcaqQvalid]
  cases C.FP_EN <;> cases i.req.qvalid <;> cases l.caqPass i.req <;> cases l.room i.req <;>
    cases i.rsp.qReady <;> rfl

/-- The load queue is pushed with every load issued. -/
theorem laq_push_eq : (!i.req.qwrite && i.rsp.qReady && l.qValid i.req && !P.laq.full l.laq) =
    (l.issues i && !i.req.qwrite) := by
  rw [issues, qValid]
  cases i.req.qwrite <;> cases i.rsp.qReady <;> cases l.postcaqQvalid i.req <;>
    cases P.laq.full l.laq <;> simp

theorem extend_eq (rsp : DataRsp C) : l.ldResult rsp = (P.laq.data l.laq).extend rsp.data := by
  rw [ldResult, Laq.extend]
  generalize P.laq.data l.laq = out
  obtain ⟨tag, signExt, offset, size⟩ := out
  cases size <;> cases signExt <;> simp [LsSize.width, BitVec.setWidth_setWidth_of_le]

/-- The load queue is popped with every result the core takes. -/
theorem laq_pop_eq : (i.rsp.pValid && l.pReady i.pready && !l.memOut) = l.delivers i := by
  rw [delivers, pvalid, pReady]
  cases i.rsp.pValid <;> cases i.pready <;> cases l.memOut <;> rfl

end Cycle

/-! ## The invariant -/

variable (laqContents : P.laq.State → List (Laq C)) (memContents : P.mem.State → List Bool)

/-- The queues hold what is remembered of the outstanding requests: of each whether it is
a write, of the others how to return the answer. -/
structure Queued (past : List (Obs C)) (l : LsuState P) : Prop where
  pending : (answered past).length ≤ (issued past).length
  mem : memContents l.mem = (outstanding past).map LsuReq.qwrite
  laq : laqContents l.laq =
    ((outstanding past).filter fun r => !r.qwrite).map LsuReq.remembered
  matched : delivered past = results past

/-- What a cycle shows of the queues: one handshake on both sides, no push into a full
queue and no pop of an empty one, and the answer to the oldest request, which a store
does not pass on and a load returns as it was asked for. -/
structure Faithful (past : List (Obs C)) (l : LsuState P) (i : LsuIn C) : Prop where
  accepts : (i.req.qvalid && l.qready i.req i.rsp) = l.issues i
  memRoom : l.issues i = true → P.mem.full l.mem = false
  laqRoom : l.issues i = true → i.req.qwrite = false → P.laq.full l.laq = false
  memSome : l.answers i = true → P.mem.empty l.mem = false
  laqSome : l.delivers i = true → P.laq.empty l.laq = false
  store : ∀ r later, outstanding past = r :: later → r.qwrite = true →
    l.pvalid i.rsp = false ∧ ∀ pready, l.pReady pready = true
  load : ∀ r later, outstanding past = r :: later → r.qwrite = false →
    l.pvalid i.rsp = i.rsp.pValid ∧ (∀ pready, l.pReady pready = pready) ∧
      l.ptag = r.qtag ∧ l.ldResult i.rsp = r.remembered.extend i.rsp.data

section Concat

variable (past : List (Obs C))

theorem issued_concat : issued (past ++ [(machine P).obs l i]) =
    issued past ++ if l.issues i then [i.req] else [] := by
  exact filterMap_shown (by rfl) _

theorem answered_concat : answered (past ++ [(machine P).obs l i]) =
    answered past ++ if l.answers i then [i.rsp.data] else [] := by
  exact filterMap_shown (by rfl) _

theorem delivered_concat : delivered (past ++ [(machine P).obs l i]) =
    delivered past ++ if l.delivers i then [(l.ptag, l.ldResult i.rsp)] else [] := by
  exact filterMap_shown (by rfl) _

end Concat

section Step

variable {laqContents memContents} {past : List (Obs C)} {l i}
  (laqLawful : P.laq.Lawful C.NumIntOutstandingLoads laqContents)
  (memLawful : P.mem.Lawful C.NumIntOutstandingMem memContents)

include memLawful in
/-- The head of the transaction queue is the kind of the oldest request. -/
theorem Queued.memOut_eq (before : Queued laqContents memContents past l) {r : LsuReq C}
    {later : List (LsuReq C)} (oldest : outstanding past = r :: later) : l.memOut = r.qwrite := by
  rw [memOut]
  apply memLawful.data_head l.mem _ (later.map LsuReq.qwrite)
  rw [before.mem, oldest, List.map_cons]

include laqLawful in
/-- The head of the load queue is what is remembered of the oldest request, if a load. -/
theorem Queued.laqOut_eq (before : Queued laqContents memContents past l) {r : LsuReq C}
    {later : List (LsuReq C)} (oldest : outstanding past = r :: later)
    (load : r.qwrite = false) : P.laq.data l.laq = r.remembered := by
  apply laqLawful.data_head l.laq _ ((later.filter fun r => !r.qwrite).map LsuReq.remembered)
  rw [before.laq, oldest, List.filter_cons_of_pos (by rw [load]; rfl), List.map_cons]

/-- A response answers an outstanding request. -/
theorem Queued.oldest (before : Queued laqContents memContents past l)
    (admitted : inOrder past l i) (answer : i.rsp.pValid = true) :
    ∃ r later, outstanding past = r :: later := by
  have some := admitted answer
  have size : (outstanding past).length + (answered past).length = (issued past).length :=
    Supply.length_unanswered before.pending
  apply List.exists_cons_of_ne_nil
  intro none
  rw [none, List.length_nil] at size
  omega

theorem pValid_of_answers (answer : l.answers i = true) : i.rsp.pValid = true := by
  rw [answers, Bool.and_eq_true] at answer
  exact answer.1

theorem answers_of_delivers (deliver : l.delivers i = true) :
    l.answers i = true ∧ l.memOut = false := by
  rw [← laq_pop_eq, Bool.and_eq_true, Bool.not_eq_true'] at deliver
  exact deliver

include laqLawful memLawful

/-- **What a cycle shows.** -/
theorem Queued.faithful (before : Queued laqContents memContents past l)
    (admitted : inOrder past l i) : Faithful past l i where
  accepts := accepts_eq_issues
  memRoom issue := by
    rw [issues, qValid, Bool.and_eq_true, Bool.and_eq_true, Bool.not_eq_true'] at issue
    exact issue.1.2
  laqRoom issue load := by
    rw [issues, qValid, load, Bool.false_or, Bool.and_eq_true, Bool.and_eq_true,
      Bool.and_eq_true, Bool.not_eq_true'] at issue
    exact issue.1.1.2
  memSome answer := by
    obtain ⟨r, later, oldest⟩ := before.oldest admitted (pValid_of_answers answer)
    rw [memLawful.empty_eq_isEmpty, before.mem, oldest]
    rfl
  laqSome deliver := by
    obtain ⟨answer, load⟩ := answers_of_delivers deliver
    obtain ⟨r, later, oldest⟩ := before.oldest admitted (pValid_of_answers answer)
    rw [before.memOut_eq memLawful oldest] at load
    rw [laqLawful.empty_eq_isEmpty, before.laq, oldest,
      List.filter_cons_of_pos (by rw [load]; rfl)]
    rfl
  store r later oldest write := by
    have kind := before.memOut_eq memLawful oldest
    refine ⟨?_, fun pready => ?_⟩
    · rw [pvalid, kind, write, Bool.not_true, Bool.and_false]
    · rw [pReady, kind, write, Bool.or_true]
  load r later oldest load := by
    have kind := before.memOut_eq memLawful oldest
    have head := before.laqOut_eq laqLawful oldest load
    refine ⟨?_, fun pready => ?_, ?_, ?_⟩
    · rw [pvalid, kind, load, Bool.not_false, Bool.and_true]
    · rw [pReady, kind, load, Bool.or_false]
    · rw [ptag, head]
      rfl
    · rw [extend_eq, head]

/-- The transaction queue takes what is issued and gives up what is answered. -/
theorem Queued.mem_next (before : Queued laqContents memContents past l)
    (admitted : inOrder past l i) : memContents ((machine P).next l i).mem =
      (if l.answers i then (memContents l.mem).tail else memContents l.mem) ++
        if l.issues i then [i.req.qwrite] else [] := by
  have shown := before.faithful laqLawful memLawful admitted
  exact memLawful.next l.mem (l.issues i) i.req.qwrite (l.answers i) shown.memRoom shown.memSome

/-- The load queue takes the loads issued and gives up what is delivered. -/
theorem Queued.laq_next (before : Queued laqContents memContents past l)
    (admitted : inOrder past l i) : laqContents ((machine P).next l i).laq =
      (if l.delivers i then (laqContents l.laq).tail else laqContents l.laq) ++
        if l.issues i && !i.req.qwrite then [i.req.remembered] else [] := by
  have shown := before.faithful laqLawful memLawful admitted
  have cell : ((machine P).next l i).laq = P.laq.next l.laq false (l.issues i && !i.req.qwrite)
      i.req.remembered (l.delivers i) := by
    rw [← laq_push_eq, ← laq_pop_eq]
    rfl
  rw [cell]
  apply laqLawful.next
  · intro push
    rw [Bool.and_eq_true, Bool.not_eq_true'] at push
    exact shown.laqRoom push.1 push.2
  · exact shown.laqSome

/-- **The invariant survives a cycle.** -/
theorem Queued.next (before : Queued laqContents memContents past l)
    (admitted : inOrder past l i) :
    Queued laqContents memContents (past ++ [(machine P).obs l i]) ((machine P).next l i) := by
  have shown := before.faithful laqLawful memLawful admitted
  have mem := before.mem_next laqLawful memLawful admitted
  have laq := before.laq_next laqLawful memLawful admitted
  have asked : Supply.unanswered (issued past ++ if l.issues i then [i.req] else [])
      (answered past) = outstanding past ++ if l.issues i then [i.req] else [] :=
    Supply.unanswered_ask before.pending _
  have kinds : (if l.issues i then [i.req] else []).map LsuReq.qwrite =
      if l.issues i then [i.req.qwrite] else [] := by
    cases l.issues i <;> rfl
  have loads : ((if l.issues i then [i.req] else []).filter fun r => !r.qwrite).map
      LsuReq.remembered = if l.issues i && !i.req.qwrite then [i.req.remembered] else [] := by
    cases l.issues i <;> cases write : i.req.qwrite <;> simp [write]
  have count := before.pending
  cases answer : l.answers i with
  | false =>
    -- nothing is answered, so nothing is delivered
    have none : l.delivers i = false := by
      rw [← Bool.not_eq_true]
      intro deliver
      rw [(answers_of_delivers deliver).1] at answer
      exact absurd answer (by simp)
    have left : outstanding (past ++ [(machine P).obs l i]) =
        outstanding past ++ if l.issues i then [i.req] else [] := by
      rw [outstanding, issued_concat, answered_concat, answer, if_neg Bool.false_ne_true,
        List.append_nil, asked]
    constructor
    · rw [answered_concat, issued_concat, answer, if_neg Bool.false_ne_true, List.append_nil,
        List.length_append]
      omega
    · rw [mem, left, answer, if_neg Bool.false_ne_true, List.map_append, kinds, before.mem]
    · rw [laq, left, none, if_neg Bool.false_ne_true, List.filter_append, List.map_append, loads,
        before.laq]
    · rw [delivered_concat, results, issued_concat, answered_concat, answer, none,
        if_neg Bool.false_ne_true, if_neg Bool.false_ne_true, List.append_nil, List.append_nil,
        Supply.zip_ask count, before.matched, results]
  | true =>
    obtain ⟨r, later, oldest⟩ := before.oldest admitted (pValid_of_answers answer)
    rw [oldest, List.cons_append] at asked
    have left : outstanding (past ++ [(machine P).obs l i]) =
        later ++ if l.issues i then [i.req] else [] := by
      rw [outstanding, issued_concat, answered_concat, answer, if_pos rfl,
        Supply.unanswered_answer asked]
    have kind := before.memOut_eq memLawful oldest
    have deliver : l.delivers i = !r.qwrite := by
      rw [← laq_pop_eq, kind]
      show (l.answers i && !r.qwrite) = _
      rw [answer, Bool.true_and]
    constructor
    · have size : (outstanding past).length + (answered past).length = (issued past).length :=
        Supply.length_unanswered count
      rw [oldest, List.length_cons] at size
      rw [answered_concat, issued_concat, answer, if_pos rfl, List.length_append,
        List.length_append, List.length_singleton]
      omega
    · rw [mem, left, answer, if_pos rfl, List.map_append, kinds, before.mem, oldest]
      rfl
    · rw [laq, left, deliver, List.filter_append, List.map_append, loads, before.laq, oldest]
      cases write : r.qwrite <;> simp [write]
    · rw [delivered_concat, results, issued_concat, answered_concat, answer, if_pos rfl,
        Supply.zip_answer asked, Supply.zip_ask count, List.filterMap_append, before.matched,
        results, deliver]
      congr 1
      cases write : r.qwrite with
      | true => simp [write]
      | false =>
        obtain ⟨-, -, tag, result⟩ := shown.load r later oldest write
        simp [write, tag, result]

theorem queued_reached {past : List (Obs C)} {l : LsuState P}
    (reached : (machine P).Reaches inOrder (init P) past l) :
    Queued laqContents memContents past l :=
  reached.invariant (Queued laqContents memContents)
    ⟨Nat.le_refl _, memLawful.init, laqLawful.init, rfl⟩
    fun _ _ _ _ before admitted => before.next laqLawful memLawful admitted

/-- **Responses are matched.**  For any depths of the two queues, any requests, any memory
that answers in order and any stalls of the write-back: the queues hold what is
outstanding, within their bounds; a request is accepted exactly when the memory takes it;
and a load or atomic is delivered the answer to its own request, as it asked for it and
in the order of issue, while the answer to a store passes unseen. -/
theorem responses_matched {past : List (Obs C)} {l : LsuState P}
    (reached : (machine P).Reaches inOrder (init P) past l) :
    Queued laqContents memContents past l ∧
      ∀ i, inOrder past l i → Faithful past l i := by
  have inv := queued_reached laqLawful memLawful reached
  exact ⟨inv, fun i admitted => inv.faithful laqLawful memLawful admitted⟩

end Step

/-! ## A load and a store -/

/-- Room for one load among two transactions. -/
abbrev oneLoad : Cfg :=
  { FP_EN := false, NumIntOutstandingLoads := 1, NumIntOutstandingMem := 2 }

/-- The byte at offset 3 is asked for. -/
def byteReq (write : Bool) : LsuReq oneLoad :=
  { qtag := 7, qwrite := write, qsigned := true, qaddr := 0x1003, qdata := 0, qsize := .byte,
    qamo := .amoNone, qmcast := 0, qvalid := true }

def lsuCycle (write valid ready answer pready : Bool) : LsuIn oneLoad :=
  { req := { byteReq write with qvalid := valid }
    caq := { qaddr := 0, qwrite := false, qvalid := false, pvalid := false }
    rsp := { qReady := ready, pValid := answer, data := 0x88776655_80332211 }
    pready := pready }

/-- The load is answered while the store is issued, but the core is not ready; then both
answers come. -/
def loadThenStore : List (LsuIn oneLoad) :=
  [lsuCycle false true true false false, lsuCycle true true true true false,
    lsuCycle false false false true true, lsuCycle false false false true false]

theorem responses_matched_one :
    delivered ((machine (LsuParts.ofList oneLoad)).trace (init _) loadThenStore) =
        [(7, 0xffffffff_ffffff80)] ∧
      Queued (fun s : List (Laq oneLoad) => s) (fun s : List Bool => s)
        ((machine (LsuParts.ofList oneLoad)).trace (init _) loadThenStore)
        ((machine (LsuParts.ofList oneLoad)).run (init _) loadThenStore) := by
  refine ⟨by decide, (responses_matched (P := LsuParts.ofList oneLoad)
    (Fifo.ofList_lawful _ _) (Fifo.ofList_lawful _ _)
    ((machine _).reaches_run (init _) loadThenStore ?_)).1⟩
  decide

end LsuState

end SnitchCluster.Core
