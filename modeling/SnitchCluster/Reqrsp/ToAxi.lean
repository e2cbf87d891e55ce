/-
# Reqrsp.ToAxi -- a strongly ordered request stream on the AXI channels

`reqrsp_to_axi`: reads go out on AR, writes and atomics on AW and W, and the answers
of R and B come back on one response channel.  AXI orders neither channel against
the other, so requests of one kind wait until those of the other kind are answered,
and an atomic, answered on both, until everything is.

Two counters and a flag are all the state there is; which response belongs to which
request is never stored.  `strongly_ordered` says that it need not be: responses
come in request order.
-/
import SnitchCluster.Reqrsp.Package
import SnitchCluster.Theory.Clocked
import SnitchCluster.Theory.Streams
import SnitchCluster.Theory.Supply

namespace SnitchCluster.Reqrsp

open Theory

/-- The sizes, the encodings and the cell. -/
structure ToAxiParts where
  AddrWidth : Nat
  DataWidth : Nat
  IdWidth : Nat
  ID : BitVec IdWidth
  MaxTrans : Nat
  axi : AxiPkg
  fork : LawfulFork 2
  MaxTrans_gt : 1 < MaxTrans

namespace ToAxiParts

variable (P : ToAxiParts)

abbrev Req := ReqChan P.AddrWidth P.DataWidth

abbrev Rsp := RspChan P.DataWidth

abbrev Ar := ArChan P.AddrWidth P.IdWidth

abbrev Aw := AwChan P.AddrWidth P.IdWidth

abbrev W := WChan P.DataWidth

abbrev R := RChan P.IdWidth P.DataWidth

abbrev B := BChan P.IdWidth

/-- `cf_math_pkg::idx_width`. -/
def CounterWidth : Nat := if 1 < P.MaxTrans then Nat.clog 2 P.MaxTrans else 1

end ToAxiParts

/-- The registers. -/
structure ToAxi (P : ToAxiParts) where
  readCnt : BitVec P.CounterWidth
  writeCnt : BitVec P.CounterWidth
  atomicInFlight : Bool
  delayRForAtomic : Bool
  fork : P.fork.State

def ToAxi.init (P : ToAxiParts) : ToAxi P := ⟨0, 0, false, false, P.fork.init⟩

/-- The inputs of a cycle. -/
structure ToAxiIn (P : ToAxiParts) where
  qValid : Bool
  q : P.Req
  pReady : Bool
  arReady : Bool
  awReady : Bool
  wReady : Bool
  rValid : Bool
  r : P.R
  bValid : Bool
  b : P.B

/-! ## Requests -/

namespace ReqChan

variable {AW DW : Nat} (q : ReqChan AW DW)

/-- `is_write`. -/
def isWrite : Bool := q.write || isAmo q.amo || q.amo == .AMOSC

/-- `write_data`: AXI has a clear where the request has an and. -/
def writeData : BitVec DW := if q.amo = .AMOAnd then ~~~q.data else q.data

end ReqChan

namespace ToAxi

variable {P : ToAxiParts} (s : ToAxi P) (i : ToAxiIn P)

/-- `axi_req_o.ar`. -/
def ar (P : ToAxiParts) (q : P.Req) : P.Ar where
  addr := q.addr
  id := P.ID
  len := 0
  size := q.size
  qos := 0
  lock := q.amo == .AMOLR

/-- `axi_req_o.aw`. -/
def aw (P : ToAxiParts) (q : P.Req) : P.Aw where
  addr := q.addr
  id := P.ID
  len := 0
  size := q.size
  qos := 0
  lock := q.amo == .AMOSC
  atop := P.axi.toAxiAmo q.amo

/-- `axi_req_o.w`. -/
def w (P : ToAxiParts) (q : P.Req) : P.W where
  data := q.writeData
  strb := q.strb
  last := true

/-! ## Return path -/

/-- `r_valid`: an atomic whose channels are still busy silences R. -/
def rValid : Bool := i.rValid && !s.delayRForAtomic

/-- `r_ready`. -/
def rReady : Bool := i.pReady && s.rValid i

/-- `axi_req_o.r_ready`. -/
def axiRready : Bool := s.rReady i && !s.delayRForAtomic

/-- `axi_req_o.b_ready`. -/
def axiBready : Bool := (i.pReady || s.atomicInFlight) && i.bValid

/-- `reqrsp_rsp_o.p_valid`: B of an atomic is swallowed. -/
def pValid : Bool := s.rValid i || (!s.atomicInFlight && i.bValid)

/-- A one in every word of 32 bits. -/
def ones (P : ToAxiParts) : BitVec P.DataWidth :=
  BitVec.ofNat _ ((List.range (P.DataWidth / 32)).foldl (fun d k => d + 2 ^ (32 * k)) 0)

/-- `reqrsp_rsp_o.p`. -/
def p : P.Rsp where
  error := (s.rValid i && i.r.resp.getLsbD 1) || (i.bValid && i.b.resp.getLsbD 1)
  data :=
    if i.bValid && !s.atomicInFlight && i.b.resp != P.axi.RESP_EXOKAY then ones P
    else if s.rValid i then i.r.data
    else 0

/-! ## Stalls -/

def decReadCnt : Bool := s.rValid i && s.rReady i

def decWriteCnt : Bool := i.bValid && s.axiBready i

def readCntNotZero : Bool :=
  decide (1 < s.readCnt.toNat) || (decide (s.readCnt.toNat = 1) && !s.decReadCnt i)

def writeCntNotZero : Bool :=
  decide (1 < s.writeCnt.toNat) || (decide (s.writeCnt.toNat = 1) && !s.decWriteCnt i)

def stallWrite : Bool :=
  i.q.isWrite && (decide (s.writeCnt.toNat = P.MaxTrans - 1) || s.readCntNotZero i)

def stallRead : Bool :=
  !i.q.isWrite && (decide (s.readCnt.toNat = P.MaxTrans - 1) || s.writeCntNotZero i)

def stallAmo : Bool := isAmo i.q.amo && s.writeCntNotZero i

def stall : Bool := s.atomicInFlight || s.stallWrite i || s.stallRead i || s.stallAmo i

/-- `q_valid`. -/
def qValid : Bool := if s.stall i then false else i.qValid

def qValidRead : Bool := s.qValid i && !i.q.isWrite

def qValidWrite : Bool := s.qValid i && i.q.isWrite

/-! ## Channels -/

/-- `axi_req_o.ar_valid`. -/
def arValid : Bool := s.qValidRead i

/-- What the fork sees of W and AW. -/
def forkReady (k : Fin 2) : Bool := if k = 0 then i.wReady else i.awReady

def qReadyWrite : Bool := P.fork.ready s.fork (s.qValidWrite i) (forkReady i)

/-- `axi_req_o.w_valid`. -/
def wValid : Bool := P.fork.valid s.fork (s.qValidWrite i) 0

/-- `axi_req_o.aw_valid`. -/
def awValid : Bool := P.fork.valid s.fork (s.qValidWrite i) 1

/-- `q_ready`. -/
def qReady : Bool := (s.qValidRead i && i.arReady) || (s.qValidWrite i && s.qReadyWrite i)

/-- `reqrsp_rsp_o.q_ready`. -/
def slvQready : Bool := if s.stall i then false else s.qReady i

/-- `delay_r_for_atomic`. -/
def delayRForAtomicD : Bool := s.qValidWrite i && !s.qReadyWrite i && isAmo i.q.amo

/-! ## The cycle -/

def qHs : Bool := i.qValid && s.slvQready i

/-- `read_cnt_d` before a response is counted. -/
def readCntInc : BitVec P.CounterWidth :=
  if s.qHs i then
    (if isAmo i.q.amo then s.readCnt + 1 else s.readCnt) + if i.q.isWrite then 0 else 1
  else s.readCnt

/-- `write_cnt_d` before a response is counted. -/
def writeCntInc : BitVec P.CounterWidth :=
  if s.qHs i && i.q.isWrite then s.writeCnt + 1 else s.writeCnt

def next : ToAxi P where
  readCnt := if s.decReadCnt i then s.readCntInc i - 1 else s.readCntInc i
  writeCnt := if s.decWriteCnt i then s.writeCntInc i - 1 else s.writeCntInc i
  atomicInFlight :=
    if s.readCntInc i = 0 ∧ s.writeCntInc i = 0 then false
    else if s.qHs i && isAmo i.q.amo then true
    else s.atomicInFlight
  delayRForAtomic := s.delayRForAtomicD i
  fork := P.fork.next s.fork (s.qValidWrite i) (forkReady i)

/-! ## Runs -/

/-- What answers a request: R, B, or both. -/
inductive Kind
  | read | write | amo
  deriving DecidableEq, Repr

/-- The kind of a request. -/
def kindOf {AW DW : Nat} (q : ReqChan AW DW) : Kind :=
  if isAmo q.amo then .amo else if q.isWrite then .write else .read

def Kind.reads : Kind → Bool
  | .read | .amo => true
  | .write => false

def Kind.writes : Kind → Bool
  | .write | .amo => true
  | .read => false

/-- What a cycle shows: the request accepted; the request let through to the channels
but not accepted; the request left waiting; the handshakes on AR, and on AW and W
with the request they are for; the channels left waiting; the beats taken from R and
B; and the response handed over, with the beat it is made from. -/
structure Obs (P : ToAxiParts) where
  accepted : Option P.Req
  pending : Option P.Req
  waiting : Option P.Req
  arHs : Bool
  awHs : Option Kind
  wHs : Bool
  arLeft : Bool
  awLeft : Bool
  wLeft : Bool
  rBeat : Option P.R
  bBeat : Option P.B
  response : Option (P.Rsp × (P.R ⊕ P.B))

def machine (P : ToAxiParts) : Machine (ToAxi P) (ToAxiIn P) (Obs P) where
  obs s i :=
    { accepted := if s.qHs i then some i.q else none
      pending := if s.qValid i && !s.qHs i then some i.q else none
      waiting := if i.qValid && !s.qHs i then some i.q else none
      arHs := s.arValid i && i.arReady
      awHs := if s.awValid i && i.awReady then some (kindOf i.q) else none
      wHs := s.wValid i && i.wReady
      arLeft := s.arValid i && !i.arReady
      awLeft := s.awValid i && !i.awReady
      wLeft := s.wValid i && !i.wReady
      rBeat := if i.rValid && s.axiRready i then some i.r else none
      bBeat := if i.bValid && s.axiBready i then some i.b else none
      response := if s.pValid i && i.pReady then
          some (s.p i, if s.rValid i then .inl i.r else .inr i.b)
        else none }
  next := next

section Past

variable (past : List (Obs P))

/-- The kinds of the requests accepted. -/
def kinds : List Kind := (past.filterMap Obs.accepted).map kindOf

/-- The beats taken from R. -/
def rBeats : List P.R := past.filterMap Obs.rBeat

/-- The beats taken from B. -/
def bBeats : List P.B := past.filterMap Obs.bBeat

/-- The responses handed over. -/
def responses : List (P.Rsp × (P.R ⊕ P.B)) := past.filterMap Obs.response

/-- The beats they are made from. -/
def sources : List (P.R ⊕ P.B) := (responses past).map Prod.snd

/-- The transactions R has to answer: reads, and atomics on AW. -/
def readsIssued : Nat :=
  (past.filter Obs.arHs).length + (past.filter fun o => o.awHs == some .amo).length

/-- The transactions B has to answer: those of which AW and W are there. -/
def writesIssued : Nat :=
  min (past.filter fun o => o.awHs.isSome).length (past.filter Obs.wHs).length

/-- The request left waiting in the last cycle, and whether it was let through. -/
def waitingNow : Option P.Req := past.getLast?.bind Obs.waiting

def pendingNow : Option P.Req := past.getLast?.bind Obs.pending

end Past

/-- Requests are held until accepted, none but plain accesses sets `write`, and the
AXI side answers what it has accepted in earlier cycles, in order: R reads and
atomics, B writes and atomics. -/
def subordinate : Machine.Env (ToAxi P) (ToAxiIn P) (Obs P) := fun past _ i =>
  (∀ q, waitingNow past = some q → i.qValid = true ∧ i.q = q) ∧
    (i.qValid = true → i.q.amo ≠ .AMONone → i.q.write = false) ∧
    (i.rValid = true → (rBeats past).length < readsIssued past) ∧
    (i.bValid = true → (bBeats past).length < writesIssued past)

/-- One response for each request, in request order: a read gets the next beat of R, a
write the next beat of B, an atomic the next of R, while its beat of B is dropped. -/
def answersTo {R B : Type} : List Kind → List R → List B → List (R ⊕ B)
  | [], _, _ => []
  | .read :: ks, r :: rs, bs => .inl r :: answersTo ks rs bs
  | .amo :: ks, r :: rs, bs => .inl r :: answersTo ks rs (bs.drop 1)
  | .write :: ks, rs, b :: bs => .inr b :: answersTo ks rs bs
  | .read :: _, [], _ => []
  | .amo :: _, [], _ => []
  | .write :: _, _, [] => []

/-- The data of a response: that of R, or the verdict B has on an exclusive write. -/
def answerData : P.R ⊕ P.B → BitVec P.DataWidth
  | .inl r => r.data
  | .inr b => if b.resp = P.axi.RESP_EXOKAY then 0 else ones P

/-- The accepted transactions that still owe a beat of R. -/
def owingR (past : List (Obs P)) : List Kind :=
  Supply.unanswered ((kinds past).filter Kind.reads) (rBeats past)

/-- The accepted transactions that still owe a beat of B. -/
def owingB (past : List (Obs P)) : List Kind :=
  Supply.unanswered ((kinds past).filter Kind.writes) (bBeats past)

/-- The order of a run. -/
structure Ordered (past : List (Obs P)) (s : ToAxi P) : Prop where
  -- the counters count, and have not wrapped
  reads : s.readCnt.toNat = (owingR past).length
  writes : s.writeCnt.toNat = (owingB past).length
  bounded : s.readCnt.toNat < P.MaxTrans ∧ s.writeCnt.toNat < P.MaxTrans
  -- reads alone, writes alone, or a single atomic
  exclusive : (owingB past = [] ∧ ∀ k ∈ owingR past, k = .read) ∨
    (owingR past = [] ∧ ∀ k ∈ owingB past, k = .write) ∨
    (owingR past).Sublist [.amo] ∧ (owingB past).Sublist [.amo]
  -- no valid is withdrawn
  held : ∀ o before i, past = before ++ [o] → subordinate past s i →
    (o.arLeft = true → s.arValid i = true) ∧ (o.awLeft = true → s.awValid i = true) ∧
      (o.wLeft = true → s.wValid i = true)
  -- one response for each request, in request order, with the data of its beat
  answers : sources past = answersTo (kinds past) (rBeats past) (bBeats past)
  data : ∀ a ∈ responses past, a.1.data = answerData a.2
  complete : owingR past = [] → owingB past = [] → (responses past).length = (kinds past).length

/-! ## What is owed -/

/-- The transactions in flight: reads, writes, or one atomic that still owes its beats
of R and B or not. -/
inductive Owing
  | reads (n : Nat)
  | writes (n : Nat)
  | atomic (r b : Bool)

namespace Owing

def kinds : Owing → List Kind
  | .reads n => List.replicate n .read
  | .writes n => List.replicate n .write
  | .atomic _ _ => [.amo]

def readCount : Owing → Nat
  | .reads n => n
  | .writes _ => 0
  | .atomic r _ => r.toNat

def writeCount : Owing → Nat
  | .reads _ => 0
  | .writes n => n
  | .atomic _ b => b.toNat

def isAtomic : Owing → Bool
  | .atomic _ _ => true
  | _ => false

/-- The beats of R and B an atomic has had. -/
def gotR : Owing → Nat
  | .atomic r _ => (!r).toNat
  | _ => 0

def gotB : Owing → Nat
  | .atomic _ b => (!b).toNat
  | _ => 0

/-- After beats of R and of B. -/
def took (r b : Bool) : Owing → Owing
  | .reads n => .reads (n - r.toNat)
  | .writes n => .writes (n - b.toNat)
  | .atomic owesR owesB => .atomic (owesR && !r) (owesB && !b)

theorem count_reads (ow : Owing) :
    ((ow.kinds.filter Kind.reads).drop ow.gotR).length = ow.readCount := by
  cases ow with
  | reads n =>
    show ((List.replicate n Kind.read).filter Kind.reads).length = n
    rw [List.filter_replicate_of_pos rfl, List.length_replicate]
  | writes n => simp [kinds, gotR, readCount, Kind.reads]
  | atomic r b => cases r <;> rfl

theorem count_writes (ow : Owing) :
    ((ow.kinds.filter Kind.writes).drop ow.gotB).length = ow.writeCount := by
  cases ow with
  | reads n => simp [kinds, gotB, writeCount, Kind.writes]
  | writes n =>
    show ((List.replicate n Kind.write).filter Kind.writes).length = n
    rw [List.filter_replicate_of_pos rfl, List.length_replicate]
  | atomic r b => cases b <;> rfl

theorem took_readCount (ow : Owing) (r b : Bool) :
    (ow.took r b).readCount = ow.readCount - r.toNat := by
  cases ow with
  | reads n => rfl
  | writes n => exact (Nat.zero_sub _).symm
  | atomic owesR owesB => cases owesR <;> cases r <;> rfl

theorem took_writeCount (ow : Owing) (r b : Bool) :
    (ow.took r b).writeCount = ow.writeCount - b.toNat := by
  cases ow with
  | reads n => exact (Nat.zero_sub _).symm
  | writes n => rfl
  | atomic owesR owesB => cases owesB <;> cases b <;> rfl

theorem took_isAtomic (ow : Owing) (r b : Bool) : (ow.took r b).isAtomic = ow.isAtomic := by
  cases ow <;> rfl

end Owing

section Ledger

variable {R B : Type}

theorem answersTo_append {ks more : List Kind} {rs rs' : List R} {bs bs' : List B}
    (reads : rs.length = (ks.filter Kind.reads).length)
    (writes : bs.length = (ks.filter Kind.writes).length) :
    answersTo (ks ++ more) (rs ++ rs') (bs ++ bs') =
      answersTo ks rs bs ++ answersTo more rs' bs' := by
  induction ks generalizing rs bs with
  | nil =>
    obtain rfl := List.length_eq_zero_iff.mp reads
    obtain rfl := List.length_eq_zero_iff.mp writes
    rfl
  | cons k ks ih =>
    cases k with
    | read =>
      cases rs with
      | nil => exact absurd reads (Nat.succ_ne_zero _).symm
      | cons r rs =>
        have rest := ih (Nat.succ.inj reads) writes
        exact congrArg _ rest
    | write =>
      cases bs with
      | nil => exact absurd writes (Nat.succ_ne_zero _).symm
      | cons b bs =>
        have rest := ih reads (Nat.succ.inj writes)
        cases rs <;> exact congrArg _ rest
    | amo =>
      cases rs with
      | nil => exact absurd reads (Nat.succ_ne_zero _).symm
      | cons r rs =>
        cases bs with
        | nil => exact absurd writes (Nat.succ_ne_zero _).symm
        | cons b bs =>
          have rest := ih (Nat.succ.inj reads) (Nat.succ.inj writes)
          exact congrArg _ rest

/-- With beats for all of them, every request has a response. -/
theorem length_answersTo {ks : List Kind} {rs : List R} {bs : List B}
    (reads : (ks.filter Kind.reads).length ≤ rs.length)
    (writes : (ks.filter Kind.writes).length ≤ bs.length) :
    (answersTo ks rs bs).length = ks.length := by
  induction ks generalizing rs bs with
  | nil => rfl
  | cons k ks ih =>
    cases k with
    | read =>
      cases rs with
      | nil => exact absurd reads (Nat.not_succ_le_zero _)
      | cons r rs =>
        have rest := ih (Nat.le_of_succ_le_succ reads) writes
        exact congrArg _ rest
    | write =>
      cases bs with
      | nil => exact absurd writes (Nat.not_succ_le_zero _)
      | cons b bs =>
        have rest := ih reads (Nat.le_of_succ_le_succ writes)
        cases rs <;> exact congrArg _ rest
    | amo =>
      cases rs with
      | nil => exact absurd reads (Nat.not_succ_le_zero _)
      | cons r rs =>
        cases bs with
        | nil => exact absurd writes (Nat.not_succ_le_zero _)
        | cons b bs =>
          have rest := ih (Nat.le_of_succ_le_succ reads) (Nat.le_of_succ_le_succ writes)
          exact congrArg _ rest

/-- The requests before those in flight have had their beats, and the responses are
theirs. -/
structure Ledger (ks : List Kind) (rs : List R) (bs : List B) (resp : List (R ⊕ B))
    (ow : Owing) : Prop where
  split : ∃ pre R1 R2 B1 B2, ks = pre ++ ow.kinds ∧ rs = R1 ++ R2 ∧ bs = B1 ++ B2 ∧
    R1.length = (pre.filter Kind.reads).length ∧ B1.length = (pre.filter Kind.writes).length ∧
    R2.length = ow.gotR ∧ B2.length = ow.gotB
  answers : resp = answersTo ks rs bs

namespace Ledger

variable {ks : List Kind} {rs : List R} {bs : List B} {resp : List (R ⊕ B)} {ow : Owing}

/-- A beat of R answers the oldest read or the atomic. -/
theorem takeR (ledger : Ledger ks rs bs resp ow) (owed : 0 < ow.readCount) (r : R) :
    Ledger ks (rs ++ [r]) bs (resp ++ [.inl r]) (ow.took true false) := by
  obtain ⟨⟨pre, R1, R2, B1, B2, rfl, rfl, rfl, reads, writes, gotR, gotB⟩, rfl⟩ := ledger
  cases ow with
  | reads n =>
    obtain rfl := List.length_eq_zero_iff.mp gotR
    obtain rfl := List.length_eq_zero_iff.mp gotB
    cases n with
    | zero => exact absurd owed (Nat.lt_irrefl _)
    | succ n =>
      constructor
      · refine ⟨pre ++ [.read], R1 ++ [r], [], B1, [], ?_, ?_, rfl, ?_, ?_, rfl, rfl⟩
        · rw [List.append_assoc]
          rfl
        · simp
        · rw [List.filter_append, List.length_append, List.length_append, reads]
          rfl
        · rw [List.filter_append, List.length_append, writes]
          rfl
      · rw [List.append_nil, answersTo_append reads writes, ← List.append_nil R1,
          answersTo_append reads writes, List.append_nil]
        show _ ++ answersTo (.read :: List.replicate n .read) [] [] ++ _ =
          _ ++ answersTo (.read :: List.replicate n .read) [r] []
        rw [answersTo, answersTo]
        cases n <;> simp [answersTo, List.replicate_succ]
  | writes n => exact absurd owed (Nat.lt_irrefl _)
  | atomic owesR owesB =>
    cases owesR with
    | false => exact absurd owed (Nat.lt_irrefl _)
    | true =>
      obtain rfl := List.length_eq_zero_iff.mp gotR
      constructor
      · refine ⟨pre, R1, [r], B1, B2, rfl, by simp, rfl, reads, writes, rfl, ?_⟩
        rw [gotB]
        cases owesB <;> rfl
      · rw [answersTo_append reads writes, List.append_nil, answersTo_append reads writes]
        show _ ++ answersTo [.amo] [] B2 ++ _ = _ ++ answersTo [.amo] [r] B2
        simp [answersTo]

/-- A beat of B answers the oldest write; that of an atomic is dropped. -/
theorem takeB (ledger : Ledger ks rs bs resp ow) (owed : 0 < ow.writeCount) (b : B) :
    Ledger ks rs (bs ++ [b]) (resp ++ if ow.isAtomic then [] else [.inr b]) (ow.took false true) := by
  obtain ⟨⟨pre, R1, R2, B1, B2, rfl, rfl, rfl, reads, writes, gotR, gotB⟩, rfl⟩ := ledger
  cases ow with
  | reads n => exact absurd owed (Nat.lt_irrefl _)
  | writes n =>
    obtain rfl := List.length_eq_zero_iff.mp gotR
    obtain rfl := List.length_eq_zero_iff.mp gotB
    cases n with
    | zero => exact absurd owed (Nat.lt_irrefl _)
    | succ n =>
      constructor
      · refine ⟨pre ++ [.write], R1, [], B1 ++ [b], [], ?_, rfl, ?_, ?_, ?_, rfl, rfl⟩
        · rw [List.append_assoc]
          rfl
        · simp
        · rw [List.filter_append, List.length_append, reads]
          rfl
        · rw [List.filter_append, List.length_append, List.length_append, writes]
          rfl
      · rw [List.append_nil, List.append_nil, ← List.append_nil R1,
          ← List.append_nil B1, answersTo_append reads writes, List.append_nil B1,
          answersTo_append reads writes, List.append_assoc]
        show _ ++ (answersTo (.write :: List.replicate n .write) [] [] ++ _) =
          _ ++ answersTo (.write :: List.replicate n .write) [] [b]
        rw [answersTo, answersTo]
        cases n <;> simp [answersTo, List.replicate_succ, Owing.isAtomic]
  | atomic owesR owesB =>
    cases owesB with
    | false => exact absurd owed (Nat.lt_irrefl _)
    | true =>
      obtain rfl := List.length_eq_zero_iff.mp gotB
      constructor
      · refine ⟨pre, R1, R2, B1, [b], rfl, rfl, by simp, reads, writes, ?_, rfl⟩
        rw [gotR]
        cases owesR <;> rfl
      · rw [List.append_nil, ← List.append_nil B1, answersTo_append reads writes,
          List.append_nil, answersTo_append reads writes]
        show _ ++ answersTo [.amo] R2 [] ++ [] = _ ++ answersTo [.amo] R2 [b]
        cases R2 <;> simp [answersTo]

/-- A request that is accepted is owed all its beats. -/
theorem accept (ledger : Ledger ks rs bs resp ow) {k : Kind} {ow' : Owing}
    (none : ow.gotR = 0 ∧ ow.gotB = 0) (none' : ow'.gotR = 0 ∧ ow'.gotB = 0)
    (more : ow'.kinds = ow.kinds ++ [k]) : Ledger (ks ++ [k]) rs bs resp ow' := by
  obtain ⟨⟨pre, R1, R2, B1, B2, rfl, rfl, rfl, reads, writes, gotR, gotB⟩, rfl⟩ := ledger
  rw [none.1] at gotR
  rw [none.2] at gotB
  obtain rfl := List.length_eq_zero_iff.mp gotR
  obtain rfl := List.length_eq_zero_iff.mp gotB
  constructor
  · refine ⟨pre, R1, [], B1, [], ?_, rfl, rfl, reads, writes, none'.1.symm, none'.2.symm⟩
    rw [more, List.append_assoc]
  · have idle : ∀ l : List Kind, answersTo l ([] : List R) ([] : List B) = [] := by
      intro l
      cases l with
      | nil => rfl
      | cons k l => cases k <;> rfl
    rw [List.append_assoc, answersTo_append reads writes, answersTo_append reads writes, idle,
      idle]

/-- An atomic that has had its beats is none in flight. -/
theorem settle (ledger : Ledger ks rs bs resp (.atomic false false)) :
    Ledger ks rs bs resp (.reads 0) := by
  obtain ⟨⟨pre, R1, R2, B1, B2, rfl, rfl, rfl, reads, writes, gotR, gotB⟩, rfl⟩ := ledger
  refine ⟨⟨pre ++ [.amo], R1 ++ R2, [], B1 ++ B2, [], ?_, ?_, ?_, ?_, ?_, rfl, rfl⟩, rfl⟩
  · exact (List.append_nil _).symm
  · exact (List.append_nil _).symm
  · exact (List.append_nil _).symm
  · rw [List.filter_append, List.length_append, List.length_append, reads, gotR]
    rfl
  · rw [List.filter_append, List.length_append, List.length_append, writes, gotB]
    rfl

/-- With no writes in flight, reads are. -/
theorem asReads (ledger : Ledger ks rs bs resp ow) (plain : ow.isAtomic = false)
    (none : ow.writeCount = 0) : Ledger ks rs bs resp (.reads ow.readCount) := by
  cases ow with
  | reads n => exact ledger
  | writes n =>
    obtain rfl : n = 0 := none
    exact ⟨ledger.split, ledger.answers⟩
  | atomic r b => exact Bool.noConfusion plain

/-- With no reads in flight, writes are. -/
theorem asWrites (ledger : Ledger ks rs bs resp ow) (plain : ow.isAtomic = false)
    (none : ow.readCount = 0) : Ledger ks rs bs resp (.writes ow.writeCount) := by
  cases ow with
  | reads n =>
    obtain rfl : n = 0 := none
    exact ⟨ledger.split, ledger.answers⟩
  | writes n => exact ledger
  | atomic r b => exact Bool.noConfusion plain

/-- What owes a beat of R. -/
theorem owesR (ledger : Ledger ks rs bs resp ow) :
    Supply.unanswered (ks.filter Kind.reads) rs = (ow.kinds.filter Kind.reads).drop ow.gotR := by
  obtain ⟨⟨pre, R1, R2, B1, B2, rfl, rfl, rfl, reads, writes, gotR, gotB⟩, _⟩ := ledger
  rw [Supply.unanswered, List.filter_append, List.length_append, reads, gotR, ← List.drop_drop,
    List.drop_left]

/-- What owes a beat of B. -/
theorem owesB (ledger : Ledger ks rs bs resp ow) :
    Supply.unanswered (ks.filter Kind.writes) bs = (ow.kinds.filter Kind.writes).drop ow.gotB := by
  obtain ⟨⟨pre, R1, R2, B1, B2, rfl, rfl, rfl, reads, writes, gotR, gotB⟩, _⟩ := ledger
  rw [Supply.unanswered, List.filter_append, List.length_append, writes, gotB, ← List.drop_drop,
    List.drop_left]

end Ledger

end Ledger

/-! ## One cycle -/

/-- A counter counts, as long as it stays in range. -/
theorem toNat_count {w : Nat} (c : BitVec w) {inc dec : Bool}
    (under : dec = true → 0 < c.toNat) (room : inc = true → dec = false → c.toNat + 1 < 2 ^ w) :
    (if dec then (if inc then c + 1 else c) - 1 else if inc then c + 1 else c).toNat + dec.toNat =
      c.toNat + inc.toNat := by
  have bound := c.isLt
  have one : 1 < 2 ^ w → (1 : BitVec w).toNat = 1 := fun wide => Nat.mod_eq_of_lt wide
  cases dec with
  | false =>
    cases inc with
    | false => rfl
    | true =>
      have fits := room rfl rfl
      show (c + 1).toNat + 0 = c.toNat + 1
      rw [BitVec.toNat_add, one (by omega), Nat.mod_eq_of_lt fits]
  | true =>
    have some := under rfl
    cases inc with
    | false =>
      show (c - 1).toNat + 1 = c.toNat + 0
      rw [BitVec.toNat_sub_of_le (by rw [BitVec.le_def, one (by omega)]; exact some),
        one (by omega)]
      omega
    | true =>
      show (c + 1 - 1).toNat + 1 = c.toNat + 1
      rw [BitVec.add_sub_cancel]

section Cycle

variable {s i}

theorem MaxTrans_le (P : ToAxiParts) : P.MaxTrans ≤ 2 ^ P.CounterWidth := by
  rw [ToAxiParts.CounterWidth, if_pos P.MaxTrans_gt]
  exact Nat.le_pow_clog (by decide) _

/-- Nothing is left of a count: it is zero, or its last unit is being taken. -/
theorem countNotZero_eq_false {n : Nat} {taken : Bool} :
    (decide (1 < n) || (decide (n = 1) && !taken)) = false ↔ n = 0 ∨ n = 1 ∧ taken = true := by
  rw [Bool.or_eq_false_iff, decide_eq_false_iff_not, Bool.and_eq_false_iff,
    decide_eq_false_iff_not, Bool.not_eq_false']
  constructor
  · rintro ⟨few, last⟩
    by_cases one : n = 1
    · exact Or.inr ⟨one, last.resolve_left fun other => other one⟩
    · left
      omega
  · rintro (none | ⟨one, counted⟩)
    · exact ⟨by omega, Or.inl (by omega)⟩
    · exact ⟨by omega, Or.inr counted⟩

theorem readCntNotZero_eq_false : s.readCntNotZero i = false ↔
    s.readCnt.toNat = 0 ∨ s.readCnt.toNat = 1 ∧ s.decReadCnt i = true :=
  countNotZero_eq_false

theorem writeCntNotZero_eq_false : s.writeCntNotZero i = false ↔
    s.writeCnt.toNat = 0 ∨ s.writeCnt.toNat = 1 ∧ s.decWriteCnt i = true :=
  countNotZero_eq_false

/-- Nothing stalls a request, whatever answers come. -/
structure Clear (s : ToAxi P) (q : P.Req) : Prop where
  flag : s.atomicInFlight = false
  write : q.isWrite = true → s.writeCnt.toNat ≠ P.MaxTrans - 1 ∧ s.readCnt.toNat = 0
  read : q.isWrite = false → s.readCnt.toNat ≠ P.MaxTrans - 1 ∧ s.writeCnt.toNat = 0
  amo : isAmo q.amo = true → s.writeCnt.toNat = 0

theorem Clear.stall (clear : Clear s i.q) : s.stall i = false := by
  obtain ⟨flag, write, read, amo⟩ := clear
  have noAmo : s.stallAmo i = false := by
    rw [stallAmo]
    cases atomic : isAmo i.q.amo with
    | false => rfl
    | true => exact writeCntNotZero_eq_false.mpr (Or.inl (amo atomic))
  rw [ToAxi.stall, flag, noAmo, stallWrite, stallRead]
  cases kind : i.q.isWrite with
  | false =>
    obtain ⟨room, none⟩ := read kind
    rw [writeCntNotZero_eq_false.mpr (Or.inl none), decide_eq_false room]
    rfl
  | true =>
    obtain ⟨room, none⟩ := write kind
    rw [readCntNotZero_eq_false.mpr (Or.inl none), decide_eq_false room]
    rfl

/-- What lets a request through. -/
theorem of_not_stall (through : s.stall i = false) : s.atomicInFlight = false ∧
    (i.q.isWrite = true → s.writeCnt.toNat ≠ P.MaxTrans - 1 ∧ s.readCntNotZero i = false) ∧
    (i.q.isWrite = false → s.readCnt.toNat ≠ P.MaxTrans - 1 ∧ s.writeCntNotZero i = false) ∧
    (isAmo i.q.amo = true → s.writeCntNotZero i = false) := by
  rw [stall, Bool.or_eq_false_iff, Bool.or_eq_false_iff, Bool.or_eq_false_iff, stallWrite,
    stallRead, stallAmo] at through
  obtain ⟨⟨⟨flag, write⟩, read⟩, amo⟩ := through
  refine ⟨flag, ?_, ?_, ?_⟩
  · intro kind
    rw [kind, Bool.true_and, Bool.or_eq_false_iff, decide_eq_false_iff_not] at write
    exact write
  · intro kind
    rw [kind, Bool.not_false, Bool.true_and, Bool.or_eq_false_iff, decide_eq_false_iff_not] at read
    exact read
  · intro atomic
    rwa [atomic, Bool.true_and] at amo

theorem qValid_eq : s.qValid i = (i.qValid && !s.stall i) := by
  rw [qValid]
  cases s.stall i <;> simp

theorem qReadyWrite_eq : s.qReadyWrite i =
    (s.qValidWrite i && ((P.fork.served s.fork 0 || i.wReady) &&
      (P.fork.served s.fork 1 || i.awReady))) := by
  rw [qReadyWrite, P.fork.lawful.ready_eq]
  have two : List.finRange 2 = [0, 1] := by decide
  rw [two]
  simp [forkReady]

theorem served_next (k : Fin 2) : P.fork.served (s.next i).fork k =
    if s.qReadyWrite i then false
    else P.fork.served s.fork k || (s.qValidWrite i && forkReady i k) :=
  P.fork.lawful.next_eq _ _ _ _

theorem awValid_eq : s.awValid i = (s.qValidWrite i && !P.fork.served s.fork 1) :=
  P.fork.lawful.valid_eq _ _ _

theorem wValid_eq : s.wValid i = (s.qValidWrite i && !P.fork.served s.fork 0) :=
  P.fork.lawful.valid_eq _ _ _

/-- A request is accepted on AR, or when AW and W are both done. -/
theorem qHs_eq : s.qHs i =
    ((s.qValidRead i && i.arReady) || s.qReadyWrite i) := by
  rw [qHs, slvQready, qReady, qReadyWrite_eq, qValidRead, qValidWrite, qValid]
  cases s.stall i <;> cases i.qValid <;> cases i.q.isWrite <;> simp

/-- An accepted request was let through. -/
theorem qValid_of_qHs (hs : s.qHs i = true) : s.qValid i = true := by
  rw [qHs_eq, qReadyWrite_eq, qValidRead, qValidWrite] at hs
  cases through : s.qValid i with
  | true => rfl
  | false =>
    rw [through] at hs
    simp at hs

theorem isWrite_of_isAmo {AW DW : Nat} {q : ReqChan AW DW} (amo : isAmo q.amo = true) :
    q.isWrite = true := by
  rw [ReqChan.isWrite, amo, Bool.or_true, Bool.true_or]

theorem kindOf_reads {AW DW : Nat} (q : ReqChan AW DW) :
    (kindOf q).reads = (isAmo q.amo || !q.isWrite) := by
  rw [kindOf]
  cases amo : isAmo q.amo with
  | true => rfl
  | false => cases q.isWrite <;> rfl

theorem kindOf_writes {AW DW : Nat} (q : ReqChan AW DW) : (kindOf q).writes = q.isWrite := by
  rw [kindOf]
  cases amo : isAmo q.amo with
  | true =>
    rw [isWrite_of_isAmo amo]
    rfl
  | false => cases q.isWrite <;> rfl

theorem readCntInc_eq : s.readCntInc i =
    if s.qHs i && (kindOf i.q).reads then s.readCnt + 1 else s.readCnt := by
  rw [readCntInc, kindOf_reads]
  cases s.qHs i with
  | false => rfl
  | true =>
    cases amo : isAmo i.q.amo with
    | true =>
      rw [isWrite_of_isAmo amo]
      simp
    | false => cases i.q.isWrite <;> simp

theorem writeCntInc_eq : s.writeCntInc i =
    if s.qHs i && (kindOf i.q).writes then s.writeCnt + 1 else s.writeCnt := by
  rw [writeCntInc, kindOf_writes]

/-- The beats that are taken, and the one that makes the response. -/
theorem rBeat_eq : (i.rValid && s.axiRready i) = s.decReadCnt i := by
  rw [axiRready, decReadCnt, rReady, rValid]
  cases i.rValid <;> cases s.delayRForAtomic <;> cases i.pReady <;> rfl

theorem response_eq : (s.pValid i && i.pReady) =
    (s.decReadCnt i || (!s.atomicInFlight && i.bValid && i.pReady)) := by
  rw [pValid, decReadCnt, rReady]
  cases s.rValid i <;> cases i.pReady <;> simp

end Cycle

/-! ## The invariant -/

/-- The request that is let through is an atomic. -/
def pendingAmo (past : List (Obs P)) : Bool := (pendingNow past).any fun q => isAmo q.amo

/-- The registers agree with what is owed; a request that was let through stays so, and
only such a request has the fork at work. -/
structure Inv (past : List (Obs P)) (s : ToAxi P) (ow : Owing) : Prop where
  ledger : Ledger (kinds past) (rBeats past) (bBeats past) (sources past) ow
  reads : s.readCnt.toNat = ow.readCount
  writes : s.writeCnt.toNat = ow.writeCount
  flag : s.atomicInFlight = ow.isAtomic
  bounded : ow.readCount < P.MaxTrans ∧ ow.writeCount < P.MaxTrans
  through : ∀ q, pendingNow past = some q → waitingNow past = some q ∧ Clear s q
  busy : ∀ taker, P.fork.served s.fork taker = true →
    ∃ q, pendingNow past = some q ∧ q.isWrite = true
  apart : ¬(P.fork.served s.fork 0 = true ∧ P.fork.served s.fork 1 = true)
  silent : P.fork.served s.fork 1 = true → pendingAmo past = true → s.delayRForAtomic = true
  left : ∀ o, past.getLast? = some o →
    (o.arLeft = true → ∃ q, pendingNow past = some q ∧ q.isWrite = false) ∧
      (o.awLeft = true → ∃ q, pendingNow past = some q ∧ q.isWrite = true ∧
        P.fork.served s.fork 1 = false) ∧
      (o.wLeft = true → ∃ q, pendingNow past = some q ∧ q.isWrite = true ∧
        P.fork.served s.fork 0 = false)
  readsIssued_eq : readsIssued past = ((kinds past).filter Kind.reads).length +
    (P.fork.served s.fork 1 && pendingAmo past).toNat
  awIssued : (past.filter fun o => o.awHs.isSome).length =
    ((kinds past).filter Kind.writes).length + (P.fork.served s.fork 1).toNat
  wIssued : (past.filter Obs.wHs).length =
    ((kinds past).filter Kind.writes).length + (P.fork.served s.fork 0).toNat
  data : ∀ a ∈ responses past, a.1.data = answerData a.2

theorem kinds_concat (past : List (Obs P)) (s : ToAxi P) (i : ToAxiIn P) :
    kinds (past ++ [(machine P).obs s i]) =
      kinds past ++ if s.qHs i then [kindOf i.q] else [] := by
  rw [kinds, filterMap_concat, List.map_append]
  show _ ++ List.map kindOf (Option.toList (if s.qHs i then _ else none)) = _
  cases s.qHs i <;> rfl

theorem rBeats_concat (past : List (Obs P)) (s : ToAxi P) (i : ToAxiIn P) :
    rBeats (past ++ [(machine P).obs s i]) =
      rBeats past ++ if s.decReadCnt i then [i.r] else [] := by
  rw [rBeats, filterMap_concat, ← rBeat_eq]
  show _ ++ Option.toList (if i.rValid && s.axiRready i then _ else none) = _
  cases i.rValid && s.axiRready i <;> rfl

theorem bBeats_concat (past : List (Obs P)) (s : ToAxi P) (i : ToAxiIn P) :
    bBeats (past ++ [(machine P).obs s i]) =
      bBeats past ++ if s.decWriteCnt i then [i.b] else [] := by
  exact filterMap_shown (by rfl) _

theorem responses_concat (past : List (Obs P)) (s : ToAxi P) (i : ToAxiIn P) :
    responses (past ++ [(machine P).obs s i]) = responses past ++
      if s.pValid i && i.pReady then [(s.p i, if s.rValid i then .inl i.r else .inr i.b)]
      else [] := by
  exact filterMap_shown (by rfl) _

theorem sources_concat (past : List (Obs P)) (s : ToAxi P) (i : ToAxiIn P) :
    sources (past ++ [(machine P).obs s i]) = sources past ++
      if s.pValid i && i.pReady then [if s.rValid i then .inl i.r else .inr i.b] else [] := by
  rw [sources, responses_concat, List.map_append]
  cases s.pValid i && i.pReady <;> rfl

theorem pendingNow_concat (past : List (Obs P)) (s : ToAxi P) (i : ToAxiIn P) :
    pendingNow (past ++ [(machine P).obs s i]) =
      if s.qValid i && !s.qHs i then some i.q else none := by
  rw [pendingNow, List.getLast?_concat]
  rfl

theorem waitingNow_concat (past : List (Obs P)) (s : ToAxi P) (i : ToAxiIn P) :
    waitingNow (past ++ [(machine P).obs s i]) =
      if i.qValid && !s.qHs i then some i.q else none := by
  rw [waitingNow, List.getLast?_concat]
  rfl

theorem count_concat {α : Type} (f : α → Bool) (past : List α) (o : α) :
    ((past ++ [o]).filter f).length = (past.filter f).length + (f o).toNat := by
  rw [List.filter_append, List.length_append, List.filter_cons]
  cases f o <;> rfl

theorem inv_init : Inv ([] : List (Obs P)) (init P) (.reads 0) where
  ledger := ⟨⟨[], [], [], [], [], rfl, rfl, rfl, rfl, rfl, rfl, rfl⟩, rfl⟩
  reads := BitVec.toNat_zero
  writes := BitVec.toNat_zero
  flag := rfl
  bounded := ⟨Nat.lt_of_succ_lt P.MaxTrans_gt, Nat.lt_of_succ_lt P.MaxTrans_gt⟩
  through q pending := absurd pending.symm (Option.some_ne_none _)
  busy taker served := by
    have idle : P.fork.served (init P).fork taker = false := P.fork.lawful.init taker
    rw [idle] at served
    exact Bool.noConfusion served
  apart both := by
    have idle : P.fork.served (init P).fork 0 = false := P.fork.lawful.init 0
    rw [idle] at both
    exact Bool.noConfusion both.1
  silent _ atomic := Bool.noConfusion atomic
  left o last := absurd last.symm (Option.some_ne_none o)
  readsIssued_eq := by
    show 0 = 0 + (P.fork.served (init P).fork 1 && false).toNat
    rw [Bool.and_false]
    rfl
  awIssued := by
    have idle : P.fork.served (init P).fork 1 = false := P.fork.lawful.init 1
    rw [idle]
    rfl
  wIssued := by
    have idle : P.fork.served (init P).fork 0 = false := P.fork.lawful.init 0
    rw [idle]
    rfl
  data _ none := absurd none List.not_mem_nil

section Step

variable {past : List (Obs P)} {s : ToAxi P} {i : ToAxiIn P} {ow : Owing}
  (before : Inv past s ow) (admitted : subordinate past s i)

include before admitted

/-- A request that was let through still is. -/
theorem Inv.stays {q : P.Req} (pending : pendingNow past = some q) :
    i.q = q ∧ s.qValid i = true := by
  obtain ⟨waits, clear⟩ := before.through q pending
  obtain ⟨valid, same⟩ := admitted.1 q waits
  subst same
  refine ⟨rfl, ?_⟩
  rw [qValid_eq, valid, clear.stall]
  rfl

/-- A fork at work works on the request at hand. -/
theorem Inv.working {taker : Fin 2} (served : P.fork.served s.fork taker = true) :
    s.qValidWrite i = true ∧ pendingNow past = some i.q := by
  obtain ⟨q, pending, write⟩ := before.busy taker served
  obtain ⟨same, valid⟩ := before.stays admitted pending
  subst same
  rw [qValidWrite, valid, write]
  exact ⟨rfl, pending⟩

theorem Inv.pendingAmo_eq {taker : Fin 2} (served : P.fork.served s.fork taker = true) :
    pendingAmo past = isAmo i.q.amo := by
  rw [pendingAmo, (before.working admitted served).2]
  rfl

/-- A beat of R that is seen is owed. -/
theorem Inv.owed_of_rValid (valid : s.rValid i = true) : 0 < ow.readCount := by
  rw [rValid, Bool.and_eq_true, Bool.not_eq_true'] at valid
  obtain ⟨offered, loud⟩ := valid
  have some := admitted.2.2.1 offered
  have quiet : (P.fork.served s.fork 1 && pendingAmo past) = false := by
    by_contra atomic
    rw [Bool.not_eq_false, Bool.and_eq_true] at atomic
    rw [before.silent atomic.1 atomic.2] at loud
    exact Bool.noConfusion loud
  rw [before.readsIssued_eq, quiet] at some
  have left : 0 < (Supply.unanswered ((kinds past).filter Kind.reads) (rBeats past)).length := by
    rw [Supply.unanswered, List.length_drop]
    show 0 < _ - _
    have none : (false : Bool).toNat = 0 := rfl
    omega
  rwa [before.ledger.owesR, ow.count_reads] at left

/-- A beat of B is owed. -/
theorem Inv.owed_of_bValid (valid : i.bValid = true) : 0 < ow.writeCount := by
  have some := admitted.2.2.2 valid
  have apart := before.apart
  rw [writesIssued, before.awIssued, before.wIssued] at some
  have left : 0 < (Supply.unanswered ((kinds past).filter Kind.writes) (bBeats past)).length := by
    rw [Supply.unanswered, List.length_drop]
    have least : min (P.fork.served s.fork 1).toNat (P.fork.served s.fork 0).toNat = 0 := by
      revert apart
      cases P.fork.served s.fork 0 <;> cases P.fork.served s.fork 1 <;> simp
    omega
  rwa [before.ledger.owesB, ow.count_writes] at left

theorem Inv.owed_of_decRead (taken : s.decReadCnt i = true) : 0 < ow.readCount := by
  rw [decReadCnt, Bool.and_eq_true] at taken
  exact before.owed_of_rValid admitted taken.1

theorem Inv.owed_of_decWrite (taken : s.decWriteCnt i = true) : 0 < ow.writeCount := by
  rw [decWriteCnt, Bool.and_eq_true] at taken
  exact before.owed_of_bValid admitted taken.1

/-- **Beats first**: what is in flight after the answers of a cycle. -/
theorem Inv.ledger_beats : Ledger (kinds past)
    (rBeats (past ++ [(machine P).obs s i])) (bBeats (past ++ [(machine P).obs s i]))
    (sources (past ++ [(machine P).obs s i])) (ow.took (s.decReadCnt i) (s.decWriteCnt i)) := by
  rw [rBeats_concat, bBeats_concat, sources_concat, response_eq]
  have flag := before.flag
  cases dR : s.decReadCnt i with
  | true =>
    have read := before.ledger.takeR (before.owed_of_decRead admitted dR) i.r
    have valid : s.rValid i = true := by
      rw [decReadCnt, Bool.and_eq_true] at dR
      exact dR.1
    rw [if_pos rfl, Bool.true_or, if_pos rfl, valid, if_pos rfl]
    cases dW : s.decWriteCnt i with
    | false =>
      rw [if_neg Bool.false_ne_true, List.append_nil]
      exact read
    | true =>
      -- only an atomic has both
      have owedR := before.owed_of_decRead admitted dR
      have owedB := before.owed_of_decWrite admitted dW
      cases ow with
      | reads n => exact absurd owedB (Nat.lt_irrefl _)
      | writes n => exact absurd owedR (Nat.lt_irrefl _)
      | atomic r b =>
        have write := read.takeB (by cases b with
          | false => exact absurd owedB (Nat.lt_irrefl _)
          | true => exact Nat.one_pos) i.b
        rw [if_pos rfl]
        simpa [Owing.took, Owing.isAtomic] using write
  | false =>
    rw [if_neg Bool.false_ne_true, List.append_nil, Bool.false_or]
    cases dW : s.decWriteCnt i with
    | false =>
      have quiet : (!s.atomicInFlight && i.bValid && i.pReady) = false := by
        rw [decWriteCnt, axiBready] at dW
        revert dW
        cases s.atomicInFlight <;> cases i.bValid <;> cases i.pReady <;> simp
      rw [quiet, if_neg Bool.false_ne_true, if_neg Bool.false_ne_true, List.append_nil,
        List.append_nil]
      have same : ow.took false false = ow := by
        cases ow with
        | reads n => rfl
        | writes n => rfl
        | atomic r b => cases r <;> cases b <;> rfl
      rw [same]
      exact before.ledger
    | true =>
      have write := before.ledger.takeB (before.owed_of_decWrite admitted dW) i.b
      rw [if_pos rfl]
      rw [decWriteCnt, axiBready, Bool.and_eq_true, Bool.and_eq_true] at dW
      obtain ⟨valid, ready, _⟩ := dW
      rw [valid, Bool.and_true]
      cases atomic : s.atomicInFlight with
      | true =>
        rw [atomic] at flag
        rw [← flag, if_pos rfl] at write
        simpa using write
      | false =>
        rw [atomic, Bool.or_false] at ready
        have silent : s.rValid i = false := by
          rw [decReadCnt, rReady, ready, Bool.true_and, Bool.and_self] at dR
          exact dR
        rw [atomic] at flag
        rw [← flag, if_neg Bool.false_ne_true] at write
        rw [ready, silent]
        exact write

/-- The counters count. -/
theorem Inv.readCnt_next (room : s.qHs i = true → (kindOf i.q).reads = true →
    s.decReadCnt i = false → s.readCnt.toNat + 1 < P.MaxTrans) :
    (s.next i).readCnt.toNat + (s.decReadCnt i).toNat =
      ow.readCount + (s.qHs i && (kindOf i.q).reads).toNat := by
  have wide := MaxTrans_le P
  have count : (s.next i).readCnt =
      if s.decReadCnt i then s.readCntInc i - 1 else s.readCntInc i := rfl
  rw [count, readCntInc_eq, ← before.reads]
  apply toNat_count
  · intro taken
    rw [before.reads]
    exact before.owed_of_decRead admitted taken
  · intro more kept
    rw [Bool.and_eq_true] at more
    exact Nat.lt_of_lt_of_le (room more.1 more.2 kept) wide

theorem Inv.writeCnt_next (room : s.qHs i = true → (kindOf i.q).writes = true →
    s.decWriteCnt i = false → s.writeCnt.toNat + 1 < P.MaxTrans) :
    (s.next i).writeCnt.toNat + (s.decWriteCnt i).toNat =
      ow.writeCount + (s.qHs i && (kindOf i.q).writes).toNat := by
  have wide := MaxTrans_le P
  have count : (s.next i).writeCnt =
      if s.decWriteCnt i then s.writeCntInc i - 1 else s.writeCntInc i := rfl
  rw [count, writeCntInc_eq, ← before.writes]
  apply toNat_count
  · intro taken
    rw [before.writes]
    exact before.owed_of_decWrite admitted taken
  · intro more kept
    rw [Bool.and_eq_true] at more
    exact Nat.lt_of_lt_of_le (room more.1 more.2 kept) wide

omit admitted in
theorem Inv.took_readCount_of_notZero (none : s.readCntNotZero i = false) :
    (ow.took (s.decReadCnt i) (s.decWriteCnt i)).readCount = 0 := by
  rw [Owing.took_readCount, ← before.reads]
  rcases readCntNotZero_eq_false.mp none with zero | ⟨one, taken⟩
  · omega
  · rw [one, taken]
    rfl

omit admitted in
theorem Inv.took_writeCount_of_notZero (none : s.writeCntNotZero i = false) :
    (ow.took (s.decReadCnt i) (s.decWriteCnt i)).writeCount = 0 := by
  rw [Owing.took_writeCount, ← before.writes]
  rcases writeCntNotZero_eq_false.mp none with zero | ⟨one, taken⟩
  · omega
  · rw [one, taken]
    rfl

/-- **Then a request**: what is in flight after one is accepted. -/
theorem Inv.ledger_accept (hs : s.qHs i = true) : ∃ ow' : Owing,
    Ledger (kinds (past ++ [(machine P).obs s i])) (rBeats (past ++ [(machine P).obs s i]))
      (bBeats (past ++ [(machine P).obs s i])) (sources (past ++ [(machine P).obs s i])) ow' ∧
    ow'.isAtomic = isAmo i.q.amo ∧
    ow'.readCount = ow.readCount - (s.decReadCnt i).toNat + (kindOf i.q).reads.toNat ∧
    ow'.writeCount = ow.writeCount - (s.decWriteCnt i).toNat + (kindOf i.q).writes.toNat ∧
    ow'.readCount < P.MaxTrans ∧ ow'.writeCount < P.MaxTrans ∧
    ((kindOf i.q).reads = true → s.decReadCnt i = false → s.readCnt.toNat + 1 < P.MaxTrans) ∧
    ((kindOf i.q).writes = true → s.decWriteCnt i = false →
      s.writeCnt.toNat + 1 < P.MaxTrans) := by
  have through := qValid_of_qHs hs
  rw [qValid_eq, Bool.and_eq_true, Bool.not_eq_true'] at through
  obtain ⟨flag, write, read, amo⟩ := of_not_stall through.2
  have beats := before.ledger_beats admitted
  have plain : (ow.took (s.decReadCnt i) (s.decWriteCnt i)).isAtomic = false := by
    rw [Owing.took_isAtomic, ← before.flag, flag]
  have fits := before.bounded
  have readsNow := before.reads
  have writesNow := before.writes
  have two := P.MaxTrans_gt
  have readTaken := ow.took_readCount (s.decReadCnt i) (s.decWriteCnt i)
  have writeTaken := ow.took_writeCount (s.decReadCnt i) (s.decWriteCnt i)
  rw [kinds_concat, hs, if_pos rfl, kindOf_reads, kindOf_writes]
  cases kind : i.q.isWrite with
  | false =>
    have noAmo : isAmo i.q.amo = false := by
      rw [← Bool.not_eq_true]
      intro atomic
      rw [isWrite_of_isAmo atomic] at kind
      exact Bool.noConfusion kind
    obtain ⟨room, none⟩ := read kind
    have empty := before.took_writeCount_of_notZero none
    have reads := beats.asReads plain empty
    have shown : kindOf i.q = .read := by rw [kindOf, noAmo, kind]; rfl
    refine ⟨.reads (ow.readCount - (s.decReadCnt i).toNat + 1), ?_, ?_, ?_, ?_, ?_, ?_, ?_, ?_⟩
    · rw [shown, ← readTaken]
      refine reads.accept ⟨rfl, rfl⟩ ⟨rfl, rfl⟩ ?_
      exact List.replicate_succ'
    · rw [noAmo]
      rfl
    · rw [noAmo]
      rfl
    · rw [← writeTaken, empty]
      rfl
    · show _ + 1 < _
      omega
    · show 0 < _
      omega
    · intro _ _
      omega
    · exact fun wrong => Bool.noConfusion wrong
  | true =>
    obtain ⟨room, none⟩ := write kind
    have empty := before.took_readCount_of_notZero none
    cases atomic : isAmo i.q.amo with
    | false =>
      have writes := beats.asWrites plain empty
      have shown : kindOf i.q = .write := by rw [kindOf, atomic, kind]; rfl
      refine ⟨.writes (ow.writeCount - (s.decWriteCnt i).toNat + 1), ?_, rfl, ?_, rfl, ?_, ?_,
        ?_, ?_⟩
      · rw [shown, ← writeTaken]
        refine writes.accept ⟨rfl, rfl⟩ ⟨rfl, rfl⟩ ?_
        exact List.replicate_succ'
      · rw [← readTaken, empty]
        rfl
      · show 0 < _
        omega
      · show _ + 1 < _
        omega
      · exact fun wrong => Bool.noConfusion wrong
      · intro _ _
        omega
    | true =>
      have drained := before.took_writeCount_of_notZero (amo atomic)
      have idle := beats.asReads plain drained
      rw [empty] at idle
      have shown : kindOf i.q = .amo := by rw [kindOf, atomic]; rfl
      refine ⟨.atomic true true, ?_, rfl, ?_, ?_, ?_, ?_, ?_, ?_⟩
      · rw [shown]
        exact idle.accept ⟨rfl, rfl⟩ ⟨rfl, rfl⟩ rfl
      · rw [← readTaken, empty]
        rfl
      · rw [← writeTaken, drained]
        rfl
      · exact two
      · exact two
      · intro _ kept
        rw [kept] at readTaken
        have unseen : (false : Bool).toNat = 0 := rfl
        rcases readCntNotZero_eq_false.mp none with zero | ⟨_, taken⟩
        · omega
        · rw [kept] at taken
          exact Bool.noConfusion taken
      · intro _ _
        omega

/-- A request let through and not accepted meets no stall in the next cycle. -/
theorem Inv.clear_next (through : s.qValid i = true) (left : s.qHs i = false) :
    Clear (s.next i) i.q := by
  rw [qValid_eq, Bool.and_eq_true, Bool.not_eq_true'] at through
  obtain ⟨flag, write, read, amo⟩ := of_not_stall through.2
  have fits := before.bounded
  have readsNow := before.reads
  have writesNow := before.writes
  have readCnt := before.readCnt_next admitted fun hs => by rw [left] at hs; contradiction
  have writeCnt := before.writeCnt_next admitted fun hs => by rw [left] at hs; contradiction
  rw [left, Bool.false_and] at readCnt writeCnt
  have zero : (false : Bool).toNat = 0 := rfl
  have one : (true : Bool).toNat = 1 := rfl
  have noReads : s.readCntNotZero i = false → (s.next i).readCnt.toNat = 0 := by
    intro none
    rcases readCntNotZero_eq_false.mp none with empty | ⟨single, taken⟩
    · omega
    · rw [taken] at readCnt
      omega
  have noWrites : s.writeCntNotZero i = false → (s.next i).writeCnt.toNat = 0 := by
    intro none
    rcases writeCntNotZero_eq_false.mp none with empty | ⟨single, taken⟩
    · omega
    · rw [taken] at writeCnt
      omega
  constructor
  · show (if _ ∧ _ then false else if s.qHs i && isAmo i.q.amo then true else _) = false
    rw [left, flag, Bool.false_and, if_neg Bool.false_ne_true, ite_self]
  · intro kind
    obtain ⟨room, none⟩ := write kind
    exact ⟨by omega, noReads none⟩
  · intro kind
    obtain ⟨room, none⟩ := read kind
    exact ⟨by omega, noWrites none⟩
  · intro atomic
    exact noWrites (amo atomic)

/-- What the fork has issued is a step ahead of what is accepted. -/
theorem Inv.issued_next :
    (s.arValid i && i.arReady).toNat +
        ((s.awValid i && i.awReady) && isAmo i.q.amo).toNat +
        (P.fork.served s.fork 1 && pendingAmo past).toNat =
      (s.qHs i && (kindOf i.q).reads).toNat + (P.fork.served (s.next i).fork 1 &&
        pendingAmo (past ++ [(machine P).obs s i])).toNat ∧
    (s.awValid i && i.awReady).toNat + (P.fork.served s.fork 1).toNat =
      (s.qHs i && (kindOf i.q).writes).toNat + (P.fork.served (s.next i).fork 1).toNat ∧
    (s.wValid i && i.wReady).toNat + (P.fork.served s.fork 0).toNat =
      (s.qHs i && (kindOf i.q).writes).toNat + (P.fork.served (s.next i).fork 0).toNat := by
  have work0 : P.fork.served s.fork 0 = true → s.qValidWrite i = true :=
    fun served => (before.working admitted served).1
  have work1 : P.fork.served s.fork 1 = true → s.qValidWrite i = true :=
    fun served => (before.working admitted served).1
  have same : P.fork.served s.fork 1 = true → pendingAmo past = isAmo i.q.amo :=
    fun served => before.pendingAmo_eq admitted served
  have apart := before.apart
  have isWrite := isWrite_of_isAmo (q := i.q)
  have pending : pendingAmo (past ++ [(machine P).obs s i]) =
      ((s.qValid i && !s.qHs i) && isAmo i.q.amo) := by
    rw [pendingAmo, pendingNow_concat]
    cases s.qValid i && !s.qHs i <;> rfl
  rw [pending, served_next, served_next, qHs_eq, kindOf_reads, kindOf_writes, awValid_eq,
    wValid_eq, qReadyWrite_eq, arValid, qValidRead]
  rw [qValidWrite] at work0 work1 ⊢
  have taken1 : forkReady i 1 = i.awReady := rfl
  have taken0 : forkReady i 0 = i.wReady := rfl
  rw [taken0, taken1]
  clear pending taken0 taken1 before admitted
  generalize P.fork.served s.fork 0 = served0 at *
  generalize P.fork.served s.fork 1 = served1 at *
  generalize s.qValid i = through at *
  generalize i.q.isWrite = write at *
  generalize isAmo i.q.amo = atomic at *
  generalize pendingAmo past = atomic' at *
  generalize i.arReady = arReady
  generalize i.awReady = awReady
  generalize i.wReady = wReady
  cases through with
  | false =>
    have idle0 : served0 = false := by cases served0 <;> simp_all
    have idle1 : served1 = false := by cases served1 <;> simp_all
    subst idle0 idle1
    simp
  | true =>
    cases write with
    | false =>
      have idle0 : served0 = false := by cases served0 <;> simp_all
      have idle1 : served1 = false := by cases served1 <;> simp_all
      subst idle0 idle1
      cases atomic <;> simp_all
    | true =>
      clear work0 work1 isWrite
      refine ⟨?_, ?_, ?_⟩
      · revert served0 served1 atomic atomic' arReady awReady wReady
        decide
      · revert served0 served1 atomic atomic' arReady awReady wReady
        decide
      · revert served0 served1 atomic atomic' arReady awReady wReady
        decide

omit before admitted in
/-- Without a request the flag falls when nothing is counted. -/
theorem atomicInFlight_kept (left : s.qHs i = false) : (s.next i).atomicInFlight =
    if s.readCnt = 0 ∧ s.writeCnt = 0 then false else s.atomicInFlight := by
  show (if s.readCntInc i = 0 ∧ s.writeCntInc i = 0 then false
    else if s.qHs i && isAmo i.q.amo then true else s.atomicInFlight) = _
  rw [readCntInc, writeCntInc, left]
  rfl

omit admitted in
/-- A request sets the flag if it is an atomic. -/
theorem Inv.atomicInFlight_accept (hs : s.qHs i = true) :
    (s.next i).atomicInFlight = isAmo i.q.amo := by
  have through := qValid_of_qHs hs
  rw [qValid_eq, Bool.and_eq_true, Bool.not_eq_true'] at through
  obtain ⟨flag, write, _, _⟩ := of_not_stall through.2
  show (if s.readCntInc i = 0 ∧ s.writeCntInc i = 0 then false
    else if s.qHs i && isAmo i.q.amo then true else s.atomicInFlight) = _
  rw [hs, flag, Bool.true_and]
  cases amo : isAmo i.q.amo with
  | false => rw [if_neg Bool.false_ne_true, ite_self]
  | true =>
    -- an atomic is also a write, so that its counter is not zero
    have kind := isWrite_of_isAmo amo
    have room := (write kind).1
    have wide := MaxTrans_le P
    have counted := before.writes
    have fits := before.bounded
    have some : s.writeCntInc i ≠ 0 := by
      rw [writeCntInc, hs, kind]
      show s.writeCnt + 1 ≠ 0
      intro wrapped
      have count := @toNat_count _ s.writeCnt true false
        (fun wrong => Bool.noConfusion wrong) (fun _ _ => by omega)
      have none : (s.writeCnt + 1).toNat + 0 = s.writeCnt.toNat + 1 := count
      rw [wrapped] at none
      exact absurd none (Nat.succ_ne_zero _).symm
    rw [if_neg fun both => some both.2, if_pos rfl]

omit admitted in
/-- With nothing counted nothing is owed, ... -/
theorem Inv.owed_zero (both : s.readCnt = 0 ∧ s.writeCnt = 0) :
    ow.readCount = 0 ∧ ow.writeCount = 0 := by
  constructor
  · rw [← before.reads, both.1]
    exact BitVec.toNat_zero
  · rw [← before.writes, both.2]
    exact BitVec.toNat_zero

/-- ... so that an atomic is over. -/
theorem Inv.ledger_settled (both : s.readCnt = 0 ∧ s.writeCnt = 0) :
    Ledger (kinds past) (rBeats (past ++ [(machine P).obs s i]))
      (bBeats (past ++ [(machine P).obs s i])) (sources (past ++ [(machine P).obs s i]))
      (.reads 0) := by
  have beats := before.ledger_beats admitted
  obtain ⟨noReads, noWrites⟩ := before.owed_zero both
  cases ow with
  | reads n =>
    obtain rfl : n = 0 := noReads
    have none : 0 - (s.decReadCnt i).toNat = 0 := Nat.zero_sub _
    rw [Owing.took, none] at beats
    exact beats
  | writes n =>
    obtain rfl : n = 0 := noWrites
    have none : 0 - (s.decWriteCnt i).toNat = 0 := Nat.zero_sub _
    rw [Owing.took, none] at beats
    exact beats.asReads rfl rfl
  | atomic r b =>
    obtain rfl : r = false := Bool.toNat_eq_zero.mp noReads
    obtain rfl : b = false := Bool.toNat_eq_zero.mp noWrites
    exact beats.settle

/-- The registers agree with what is owed after the cycle. -/
theorem Inv.ledger_next : ∃ ow' : Owing,
    Ledger (kinds (past ++ [(machine P).obs s i])) (rBeats (past ++ [(machine P).obs s i]))
      (bBeats (past ++ [(machine P).obs s i])) (sources (past ++ [(machine P).obs s i])) ow' ∧
    (s.next i).readCnt.toNat = ow'.readCount ∧ (s.next i).writeCnt.toNat = ow'.writeCount ∧
    (s.next i).atomicInFlight = ow'.isAtomic ∧
    ow'.readCount < P.MaxTrans ∧ ow'.writeCount < P.MaxTrans := by
  have fits := before.bounded
  have decR : s.decReadCnt i = true → 0 < ow.readCount := before.owed_of_decRead admitted
  have decW : s.decWriteCnt i = true → 0 < ow.writeCount := before.owed_of_decWrite admitted
  have zero : (false : Bool).toNat = 0 := rfl
  have one : (true : Bool).toNat = 1 := rfl
  cases hs : s.qHs i with
  | true =>
    obtain ⟨ow', ledger, atomic, reads, writes, fitsR, fitsW, roomR, roomW⟩ :=
      before.ledger_accept admitted hs
    have readCnt := before.readCnt_next admitted fun _ => roomR
    have writeCnt := before.writeCnt_next admitted fun _ => roomW
    rw [hs, Bool.true_and] at readCnt writeCnt
    refine ⟨ow', ledger, ?_, ?_, ?_, fitsR, fitsW⟩
    · cases taken : s.decReadCnt i with
      | false =>
        rw [taken] at readCnt reads
        omega
      | true =>
        have some := decR taken
        rw [taken] at readCnt reads
        omega
    · cases taken : s.decWriteCnt i with
      | false =>
        rw [taken] at writeCnt writes
        omega
      | true =>
        have some := decW taken
        rw [taken] at writeCnt writes
        omega
    · rw [before.atomicInFlight_accept hs, atomic]
  | false =>
    have readCnt := before.readCnt_next admitted fun other => by
      rw [hs] at other
      contradiction
    have writeCnt := before.writeCnt_next admitted fun other => by
      rw [hs] at other
      contradiction
    have beats := before.ledger_beats admitted
    have readTaken := ow.took_readCount (s.decReadCnt i) (s.decWriteCnt i)
    have writeTaken := ow.took_writeCount (s.decReadCnt i) (s.decWriteCnt i)
    have same : kinds (past ++ [(machine P).obs s i]) = kinds past := by
      rw [kinds_concat, hs, if_neg Bool.false_ne_true, List.append_nil]
    have kept := atomicInFlight_kept hs
    rw [hs, Bool.false_and] at readCnt writeCnt
    rw [same]
    by_cases both : s.readCnt = 0 ∧ s.writeCnt = 0
    · obtain ⟨noReads, noWrites⟩ := before.owed_zero both
      refine ⟨.reads 0, before.ledger_settled admitted both, ?_, ?_, ?_, ?_, ?_⟩
      · show _ = 0
        omega
      · show _ = 0
        omega
      · rw [kept, if_pos both]
        rfl
      · show 0 < _
        omega
      · show 0 < _
        omega
    · refine ⟨ow.took (s.decReadCnt i) (s.decWriteCnt i), beats, ?_, ?_, ?_, ?_, ?_⟩
      · omega
      · omega
      · rw [kept, if_neg both, before.flag, Owing.took_isAtomic]
      · omega
      · omega

/-- A fork at work after the cycle works on a request that is not accepted. -/
theorem Inv.working_next {taker : Fin 2} (served : P.fork.served (s.next i).fork taker = true) :
    s.qValidWrite i = true ∧ s.qReadyWrite i = false ∧
      pendingNow (past ++ [(machine P).obs s i]) = some i.q := by
  rw [served_next] at served
  cases done : s.qReadyWrite i with
  | true =>
    rw [done, if_pos rfl] at served
    exact Bool.noConfusion served
  | false =>
    rw [done, if_neg Bool.false_ne_true, Bool.or_eq_true] at served
    have write : s.qValidWrite i = true := by
      rcases served with already | now
      · exact (before.working admitted already).1
      · rw [Bool.and_eq_true] at now
        exact now.1
    refine ⟨write, rfl, ?_⟩
    rw [qValidWrite, Bool.and_eq_true] at write
    rw [pendingNow_concat, qHs_eq, qValidRead, done, write.1, write.2]
    rfl

omit before admitted in
/-- A channel left waiting waits for a request that is not accepted. -/
theorem left_next :
    (s.arValid i = true → i.arReady = false →
      ∃ q, pendingNow (past ++ [(machine P).obs s i]) = some q ∧ q.isWrite = false) ∧
    (s.awValid i = true → i.awReady = false →
      ∃ q, pendingNow (past ++ [(machine P).obs s i]) = some q ∧ q.isWrite = true ∧
        P.fork.served (s.next i).fork 1 = false) ∧
    (s.wValid i = true → i.wReady = false →
      ∃ q, pendingNow (past ++ [(machine P).obs s i]) = some q ∧ q.isWrite = true ∧
        P.fork.served (s.next i).fork 0 = false) := by
  have taken1 : forkReady i 1 = i.awReady := rfl
  have taken0 : forkReady i 0 = i.wReady := rfl
  refine ⟨?_, ?_, ?_⟩
  · intro valid busy
    rw [arValid, qValidRead, Bool.and_eq_true, Bool.not_eq_true'] at valid
    refine ⟨i.q, ?_, valid.2⟩
    rw [pendingNow_concat, qHs_eq, qReadyWrite_eq, qValidRead, qValidWrite, busy, valid.1, valid.2]
    rfl
  · intro valid busy
    rw [awValid_eq, Bool.and_eq_true, Bool.not_eq_true'] at valid
    obtain ⟨write, unserved⟩ := valid
    have notDone : s.qReadyWrite i = false := by
      rw [qReadyWrite_eq, unserved, busy, Bool.or_false, Bool.and_false, Bool.and_false]
    rw [served_next, notDone, taken1, busy, unserved, Bool.and_false, pendingNow_concat, qHs_eq,
      notDone]
    rw [qValidWrite, Bool.and_eq_true] at write
    rw [qValidRead, write.1, write.2]
    exact ⟨i.q, rfl, write.2, rfl⟩
  · intro valid busy
    rw [wValid_eq, Bool.and_eq_true, Bool.not_eq_true'] at valid
    obtain ⟨write, unserved⟩ := valid
    have notDone : s.qReadyWrite i = false := by
      rw [qReadyWrite_eq, unserved, busy, Bool.or_false, Bool.false_and, Bool.and_false]
    rw [served_next, notDone, taken0, busy, unserved, Bool.and_false, pendingNow_concat, qHs_eq,
      notDone]
    rw [qValidWrite, Bool.and_eq_true] at write
    rw [qValidRead, write.1, write.2]
    exact ⟨i.q, rfl, write.2, rfl⟩

/-- The data of a response is that of its beat. -/
theorem Inv.data_next (valid : s.pValid i = true) :
    (s.p i).data = answerData (if s.rValid i then .inl i.r else .inr i.b) := by
  cases read : s.rValid i with
  | true =>
    -- R and B together answer an atomic
    have quiet : (i.bValid && !s.atomicInFlight) = false := by
      cases offered : i.bValid with
      | false => rfl
      | true =>
        have owedR := before.owed_of_rValid admitted read
        have owedB := before.owed_of_bValid admitted offered
        rw [before.flag]
        cases ow with
        | reads n => exact absurd owedB (Nat.lt_irrefl _)
        | writes n => exact absurd owedR (Nat.lt_irrefl _)
        | atomic r b => rfl
    show (if i.bValid && !s.atomicInFlight && _ then _ else if s.rValid i then _ else _) = i.r.data
    rw [quiet, read]
    rfl
  | false =>
    rw [pValid, read, Bool.false_or, Bool.and_eq_true] at valid
    show (if i.bValid && !s.atomicInFlight && i.b.resp != P.axi.RESP_EXOKAY then ones P
      else if s.rValid i then _ else 0) = if i.b.resp = P.axi.RESP_EXOKAY then 0 else ones P
    rw [valid.1, valid.2, read]
    by_cases done : i.b.resp = P.axi.RESP_EXOKAY
    · rw [if_pos done, done]
      simp
    · rw [if_neg done]
      simp [done]

/-- **The step lemma.** -/
theorem Inv.next : ∃ ow', Inv (past ++ [(machine P).obs s i]) (s.next i) ow' := by
  obtain ⟨ow', ledger, reads, writes, flag, fitsR, fitsW⟩ := before.ledger_next admitted
  obtain ⟨readsEq, awEq, wEq⟩ := before.issued_next admitted
  have kindsNow := kinds_concat past s i
  have added : ∀ f : Kind → Bool,
      ((kinds (past ++ [(machine P).obs s i])).filter f).length =
        ((kinds past).filter f).length + (s.qHs i && f (kindOf i.q)).toNat := by
    intro f
    rw [kindsNow, List.filter_append, List.length_append]
    cases s.qHs i with
    | false => rfl
    | true =>
      rw [if_pos rfl, List.filter_singleton, Bool.true_and]
      cases f (kindOf i.q) <;> rfl
  refine ⟨ow', ledger, reads, writes, flag, ⟨fitsR, fitsW⟩, ?_, ?_, ?_, ?_, ?_, ?_, ?_, ?_, ?_⟩
  · intro q pending
    rw [pendingNow_concat] at pending
    cases left : s.qValid i && !s.qHs i with
    | false =>
      rw [left, if_neg Bool.false_ne_true] at pending
      exact absurd pending.symm (Option.some_ne_none _)
    | true =>
      rw [left, if_pos rfl] at pending
      obtain rfl := Option.some.inj pending
      rw [Bool.and_eq_true, Bool.not_eq_true'] at left
      have offered : i.qValid = true := by
        have through := left.1
        rw [qValid_eq, Bool.and_eq_true] at through
        exact through.1
      rw [waitingNow_concat, offered, left.2]
      exact ⟨rfl, before.clear_next admitted left.1 left.2⟩
  · intro taker served
    obtain ⟨write, _, pending⟩ := before.working_next admitted served
    rw [qValidWrite, Bool.and_eq_true] at write
    exact ⟨i.q, pending, write.2⟩
  · rintro ⟨served0, served1⟩
    obtain ⟨write, notDone, _⟩ := before.working_next admitted served0
    rw [served_next, notDone, write] at served0 served1
    rw [qReadyWrite_eq, write] at notDone
    have all : ((P.fork.served s.fork 0 || i.wReady) && (P.fork.served s.fork 1 || i.awReady)) =
        true := Bool.and_eq_true_iff.mpr ⟨served0, served1⟩
    rw [all] at notDone
    exact Bool.noConfusion notDone
  · intro served amo
    obtain ⟨write, notDone, pending⟩ := before.working_next admitted served
    have atomic : isAmo i.q.amo = true := by
      rw [pendingAmo, pending] at amo
      exact amo
    show (s.qValidWrite i && !s.qReadyWrite i && isAmo i.q.amo) = true
    rw [write, notDone, atomic]
    rfl
  · intro o last
    rw [List.getLast?_concat] at last
    obtain rfl := Option.some.inj last
    obtain ⟨ar, aw, w⟩ := @left_next P past s i
    refine ⟨?_, ?_, ?_⟩
    · intro waits
      have both : (s.arValid i && !i.arReady) = true := waits
      rw [Bool.and_eq_true, Bool.not_eq_true'] at both
      exact ar both.1 both.2
    · intro waits
      have both : (s.awValid i && !i.awReady) = true := waits
      rw [Bool.and_eq_true, Bool.not_eq_true'] at both
      exact aw both.1 both.2
    · intro waits
      have both : (s.wValid i && !i.wReady) = true := waits
      rw [Bool.and_eq_true, Bool.not_eq_true'] at both
      exact w both.1 both.2
  · rw [readsIssued, count_concat, count_concat, added]
    have issued := before.readsIssued_eq
    rw [readsIssued] at issued
    have ar : ((machine P).obs s i).arHs = (s.arValid i && i.arReady) := rfl
    have amo : (((machine P).obs s i).awHs == some .amo) =
        ((s.awValid i && i.awReady) && isAmo i.q.amo) := by
      show ((if s.awValid i && i.awReady then some (kindOf i.q) else none) == some .amo) = _
      cases s.awValid i && i.awReady with
      | false => rfl
      | true =>
        rw [kindOf]
        cases isAmo i.q.amo <;> cases i.q.isWrite <;> rfl
    rw [ar, amo]
    omega
  · rw [count_concat, added]
    have issued := before.awIssued
    have aw : ((machine P).obs s i).awHs.isSome = (s.awValid i && i.awReady) := by
      show (if s.awValid i && i.awReady then some (kindOf i.q) else none).isSome = _
      cases s.awValid i && i.awReady <;> rfl
    rw [aw]
    omega
  · rw [count_concat, added]
    have issued := before.wIssued
    have w : ((machine P).obs s i).wHs = (s.wValid i && i.wReady) := rfl
    rw [w]
    omega
  · intro a among
    rw [responses_concat] at among
    cases handed : s.pValid i && i.pReady with
    | false =>
      rw [handed, if_neg Bool.false_ne_true, List.append_nil] at among
      exact before.data a among
    | true =>
      rw [handed, if_pos rfl, List.mem_append, List.mem_singleton] at among
      rcases among with earlier | rfl
      · exact before.data a earlier
      · rw [Bool.and_eq_true] at handed
        exact before.data_next admitted handed.1

end Step

theorem inv_of_reaches {past : List (Obs P)} {s : ToAxi P}
    (reached : (machine P).Reaches subordinate (init P) past s) : ∃ ow, Inv past s ow :=
  reached.invariant (fun past s => ∃ ow, Inv past s ow) ⟨_, inv_init⟩
    fun _ _ _ _ ⟨_, before⟩ admitted => before.next admitted

/-! ## The result -/

/-- In flight are reads alone, writes alone, or a single atomic. -/
theorem Inv.exclusive {past : List (Obs P)} {s : ToAxi P} {ow : Owing} (inv : Inv past s ow) :
    (owingB past = [] ∧ ∀ k ∈ owingR past, k = .read) ∨
      (owingR past = [] ∧ ∀ k ∈ owingB past, k = .write) ∨
      (owingR past).Sublist [.amo] ∧ (owingB past).Sublist [.amo] := by
  have owesR : owingR past = _ := inv.ledger.owesR
  have owesB : owingB past = _ := inv.ledger.owesB
  rw [owesR, owesB]
  cases ow with
  | reads n =>
    left
    refine ⟨?_, ?_⟩
    · show (List.replicate n Kind.read).filter Kind.writes = []
      rw [List.filter_replicate_of_neg (by decide)]
    · intro k owed
      have among : k ∈ (List.replicate n Kind.read).filter Kind.reads := owed
      exact List.eq_of_mem_replicate (List.mem_filter.mp among).1
  | writes n =>
    right
    left
    refine ⟨?_, ?_⟩
    · show (List.replicate n Kind.write).filter Kind.reads = []
      rw [List.filter_replicate_of_neg (by decide)]
    · intro k owed
      have among : k ∈ (List.replicate n Kind.write).filter Kind.writes := owed
      exact List.eq_of_mem_replicate (List.mem_filter.mp among).1
  | atomic r b =>
    right
    right
    exact ⟨List.drop_sublist _ _, List.drop_sublist _ _⟩

/-- **Strong ordering.**  In every run the counters count what is owed and do not
wrap; in flight are reads alone, writes alone or one atomic; no valid is withdrawn;
and every request is answered once, in request order. -/
theorem strongly_ordered (P : ToAxiParts) {past : List (Obs P)} {s : ToAxi P}
    (reached : (machine P).Reaches subordinate (init P) past s) : Ordered past s := by
  obtain ⟨ow, inv⟩ := inv_of_reaches reached
  have reads : s.readCnt.toNat = (owingR past).length := by
    rw [owingR, inv.ledger.owesR, ow.count_reads]
    exact inv.reads
  have writes : s.writeCnt.toNat = (owingB past).length := by
    rw [owingB, inv.ledger.owesB, ow.count_writes]
    exact inv.writes
  have bounded : s.readCnt.toNat < P.MaxTrans ∧ s.writeCnt.toNat < P.MaxTrans := by
    rw [inv.reads, inv.writes]
    exact inv.bounded
  have complete : owingR past = [] → owingB past = [] →
      (responses past).length = (kinds past).length := by
    intro noReads noWrites
    have all := length_answersTo (List.drop_eq_nil_iff.mp noReads) (List.drop_eq_nil_iff.mp noWrites)
    rw [← inv.ledger.answers, sources, List.length_map] at all
    exact all
  refine ⟨reads, writes, bounded, inv.exclusive, ?_, inv.ledger.answers, inv.data, complete⟩
  rintro o earlier i rfl admitted
  obtain ⟨ar, aw, w⟩ := inv.left o List.getLast?_concat
  refine ⟨?_, ?_, ?_⟩
  · intro waits
    obtain ⟨q, pending, kind⟩ := ar waits
    obtain ⟨rfl, through⟩ := inv.stays admitted pending
    rw [arValid, qValidRead, through, kind]
    rfl
  · intro waits
    obtain ⟨q, pending, kind, unserved⟩ := aw waits
    obtain ⟨rfl, through⟩ := inv.stays admitted pending
    rw [awValid_eq, qValidWrite, through, kind, unserved]
    rfl
  · intro waits
    obtain ⟨q, pending, kind, unserved⟩ := w waits
    obtain ⟨rfl, through⟩ := inv.stays admitted pending
    rw [wValid_eq, qValidWrite, through, kind, unserved]
    rfl

/-! ## One atomic -/

/-- A bridge of 32 bits with counters of a single bit. -/
abbrev narrow : ToAxiParts where
  AddrWidth := 32
  DataWidth := 32
  IdWidth := 1
  ID := 0
  MaxTrans := 2
  axi := .amba
  fork := .ofFlags 2
  MaxTrans_gt := by decide

/-- An atomic whose W is accepted a cycle after its AW, and whose R comes early. -/
def oneAtomic : List (ToAxiIn narrow) :=
  let add : narrow.Req := { addr := 8, write := false, amo := .AMOAdd, data := 1, strb := 15, size := 2 }
  let r : narrow.R := { id := 0, data := 41, resp := 0, last := true }
  let b : narrow.B := { id := 0, resp := 0 }
  let quiet : ToAxiIn narrow :=
    { qValid := false, q := add, pReady := true, arReady := true, awReady := true, wReady := true,
      rValid := false, r := r, bValid := false, b := b }
  [{ quiet with qValid := true, wReady := false }, { quiet with qValid := true, rValid := true },
    { quiet with rValid := true }, { quiet with bValid := true }]

theorem strongly_ordered_atomic :
    ((responses ((machine narrow).trace (init narrow) oneAtomic)).map fun a => a.1.data) = [41] ∧
      Ordered ((machine narrow).trace (init narrow) oneAtomic)
        ((machine narrow).run (init narrow) oneAtomic) := by
  refine ⟨by decide, strongly_ordered narrow ((machine narrow).reaches_run (init narrow) oneAtomic
    ⟨?_, ?_, ?_, ?_, trivial⟩)⟩
  all_goals
    refine ⟨?_, ?_, ?_, ?_⟩
    · intro q waits
      revert q
      decide
    all_goals decide

end ToAxi

end SnitchCluster.Reqrsp
