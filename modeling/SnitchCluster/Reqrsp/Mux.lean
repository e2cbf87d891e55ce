/-
# Reqrsp.Mux -- several requesters on one request and response port

`reqrsp_mux`: each port may be cut by a spill register, an arbiter picks among the
requests unless the routing queue is full, and the port number recomputed from the
grants enters that queue with every request that goes out.  A response goes to the
port at its head, and waits for that port.  A single port needs no queue.

`requests_routed_back` is the queue discipline of every run: what is in the registers
and in the queue accounts for every request and every response.
-/
import SnitchCluster.Theory.Clocked
import SnitchCluster.Theory.Streams
import SnitchCluster.Theory.Supply

namespace SnitchCluster.Reqrsp

open Theory

/-- The sizes and cells.  `onehotToBin` is only known on vectors with one bit set. -/
structure MuxParts (Req : Type) where
  NrPorts : Nat
  RespDepth : Nat
  RegisterReq : Fin NrPorts → Bool
  cut : ∀ k, LawfulSpill Req (!RegisterReq k)
  arb : LawfulArbiter NrPorts
  fifo : LawfulFifo (Fin NrPorts) RespDepth
  onehotToBin : (Fin NrPorts → Bool) → Fin NrPorts
  ports_pos : 0 < NrPorts
  onehotToBin_eq : ∀ k, onehotToBin (fun j => decide (j = k)) = k

/-- The registers are those of the cells. -/
structure Mux {Req : Type} (P : MuxParts Req) where
  cut : ∀ k, (P.cut k).State
  arb : P.arb.State
  fifo : P.fifo.State

def Mux.init {Req : Type} (P : MuxParts Req) : Mux P :=
  ⟨fun k => (P.cut k).init, P.arb.init, P.fifo.init⟩

/-- The inputs of a cycle: the requests of the ports and where they take a response,
and the other side. -/
structure MuxIn {Req : Type} (P : MuxParts Req) (Rsp : Type) where
  qValid : Fin P.NrPorts → Bool
  q : Fin P.NrPorts → Req
  pReady : Fin P.NrPorts → Bool
  mstQready : Bool
  mstPvalid : Bool
  p : Rsp

namespace Mux

variable {Req Rsp : Type} {P : MuxParts Req} (s : Mux P) (i : MuxIn P Rsp)

/-! ## Wires -/

/-- `full`: with a single port there is no queue. -/
def full : Bool := decide (1 < P.NrPorts) && P.fifo.full s.fifo

/-- `idx_rsp`. -/
def idxRsp : Fin P.NrPorts :=
  if 1 < P.NrPorts then P.fifo.data s.fifo else ⟨0, P.ports_pos⟩

/-- `req_valid_q`. -/
def reqValidQ (k : Fin P.NrPorts) : Bool := (P.cut k).valid (s.cut k) (i.qValid k)

/-- `req_payload_q`. -/
def reqPayloadQ (k : Fin P.NrPorts) : Req := (P.cut k).data (s.cut k) (i.q k)

def reqValidMasked (k : Fin P.NrPorts) : Bool := s.reqValidQ i k && !s.full

/-- `req_ready_q`. -/
def reqReadyQ (k : Fin P.NrPorts) : Bool :=
  P.arb.grant s.arb (s.reqValidMasked i) i.mstQready k

def reqReadyMasked (k : Fin P.NrPorts) : Bool := s.reqReadyQ i k && !s.full

/-- `slv_rsp_q_ready`. -/
def slvQready (k : Fin P.NrPorts) : Bool := (P.cut k).ready (s.cut k) (s.reqReadyMasked i k)

/-- `idx_o`: the port picked. -/
def idxO : Fin P.NrPorts := P.arb.idx s.arb (s.reqValidMasked i)

def mstQvalid : Bool := P.arb.valid s.arb (s.reqValidMasked i)

def mstQ : Req := s.reqPayloadQ i (s.idxO i)

/-- `idx`: the port granted, from the handshakes. -/
def idx : Fin P.NrPorts := P.onehotToBin fun k => s.reqValidQ i k && s.reqReadyQ i k

def slvPvalid (k : Fin P.NrPorts) : Bool := decide (k = s.idxRsp) && i.mstPvalid

def mstPready : Bool := i.pReady s.idxRsp

/-- A request goes out. -/
def mstQhs : Bool := s.mstQvalid i && i.mstQready

/-- A response comes in. -/
def mstPhs : Bool := s.mstPready i && i.mstPvalid

def next : Mux P where
  cut k := (P.cut k).next (s.cut k) (i.qValid k) (i.q k) (s.reqReadyMasked i k)
  arb := P.arb.next s.arb (s.reqValidMasked i) i.mstQready
  fifo := if 1 < P.NrPorts then
      P.fifo.next s.fifo false (s.mstQhs i) (s.idx i) (s.mstPhs i)
    else s.fifo

/-! ## Runs -/

/-- What a cycle shows: the requests taken from the ports and those left waiting
there, the request that goes out with the port picked for it, the response that
comes in, and the responses handed to the ports. -/
structure Obs (P : MuxParts Req) (Rsp : Type) where
  accepted : Fin P.NrPorts → Option Req
  waiting : Fin P.NrPorts → Option Req
  forwarded : Option (Fin P.NrPorts × Req)
  answered : Option Rsp
  delivered : Fin P.NrPorts → Option Rsp

def machine (P : MuxParts Req) (Rsp : Type) : Machine (Mux P) (MuxIn P Rsp) (Obs P Rsp) where
  obs s i :=
    { accepted := fun k => if i.qValid k && s.slvQready i k then some (i.q k) else none
      waiting := fun k => if i.qValid k && !s.slvQready i k then some (i.q k) else none
      forwarded := if s.mstQhs i then some (s.idxO i, s.mstQ i) else none
      answered := if s.mstPhs i then some i.p else none
      delivered := fun k => if s.slvPvalid i k && i.pReady k then some i.p else none }
  next := next

section Past

variable (past : List (Obs P Rsp))

/-- The requests taken from a port. -/
def acceptedOf (k : Fin P.NrPorts) : List Req := past.filterMap fun o => o.accepted k

/-- The requests that went out, each with its port. -/
def forwarded : List (Fin P.NrPorts × Req) := past.filterMap Obs.forwarded

def forwardedOf (k : Fin P.NrPorts) : List Req :=
  (forwarded past).filterMap fun f => if f.1 = k then some f.2 else none

/-- The responses that came in. -/
def answered : List Rsp := past.filterMap Obs.answered

/-- The responses handed to a port. -/
def deliveredTo (k : Fin P.NrPorts) : List Rsp := past.filterMap fun o => o.delivered k

/-- The responses to the requests of a port. -/
def responsesTo (k : Fin P.NrPorts) : List Rsp :=
  ((forwarded past).zip (answered past)).filterMap fun f => if f.1.1 = k then some f.2 else none

/-- The request a port was left with in the last cycle. -/
def waitingOf (k : Fin P.NrPorts) : Option Req := past.getLast?.bind fun o => o.waiting k

end Past

/-- Requests are held until they are taken, and the other side answers in order, each
request in a later cycle than it takes it. -/
def inOrder : Machine.Env (Mux P) (MuxIn P Rsp) (Obs P Rsp) := fun past _ i =>
  (∀ k q, waitingOf past k = some q → i.qValid k = true ∧ i.q k = q) ∧
    (i.mstPvalid = true → (answered past).length < (forwarded past).length)

/-- The bookkeeping of a run: what was taken from a port went out, once and in order,
or is in its spill register; each port was handed the responses to its requests and
no other; and the routing queue is used within its bounds. -/
structure Routed (past : List (Obs P Rsp)) (s : Mux P) : Prop where
  once : ∀ k, acceptedOf past k = forwardedOf past k ++ (P.cut k).contents (s.cut k)
  routed : ∀ k, deliveredTo past k = responsesTo past k
  pending : (answered past).length ≤ (forwarded past).length
  bounds : 1 < P.NrPorts → ∀ i, inOrder past s i →
    (s.mstQhs i = true → P.fifo.full s.fifo = false) ∧
      (s.mstPhs i = true → P.fifo.empty s.fifo = false)

/-! ## One cycle -/

section Cycle

variable {s i} (kept : ∀ k, P.arb.settled s.arb = some k → s.reqValidMasked i k = true)

include kept

theorem mstQvalid_eq : s.mstQvalid i = anyReq (s.reqValidMasked i) :=
  P.arb.lawful.valid_eq _ _ kept

/-- The port picked has a request, and the queue has room. -/
theorem picked (valid : s.mstQvalid i = true) :
    s.reqValidQ i (s.idxO i) = true ∧ s.full = false := by
  rw [mstQvalid_eq kept] at valid
  have masked : s.reqValidMasked i (s.idxO i) = true := P.arb.lawful.chosen _ _ kept valid
  rw [reqValidMasked, Bool.and_eq_true, Bool.not_eq_true'] at masked
  exact masked

theorem reqReadyQ_eq (valid : s.mstQvalid i = true) (k : Fin P.NrPorts) :
    s.reqReadyQ i k = (i.mstQready && decide (k = s.idxO i)) := by
  rw [mstQvalid_eq kept] at valid
  exact P.arb.lawful.grants _ _ _ kept valid k

/-- A cut hands its request over exactly when it goes out. -/
theorem cutHs_eq (k : Fin P.NrPorts) : (s.reqValidQ i k && s.reqReadyMasked i k) =
    (s.mstQhs i && decide (k = s.idxO i)) := by
  rw [mstQhs]
  cases valid : s.mstQvalid i with
  | false =>
    have none : s.reqValidMasked i k = false := by
      rw [mstQvalid_eq kept, ← Bool.not_eq_true, anyReq_iff] at valid
      rw [← Bool.not_eq_true]
      exact fun asks => valid ⟨k, asks⟩
    rw [reqValidMasked] at none
    rw [reqReadyMasked, Bool.and_left_comm, none]
    simp
  | true =>
    obtain ⟨asks, room⟩ := picked kept valid
    rw [reqReadyMasked, reqReadyQ_eq kept valid, room]
    by_cases mine : k = s.idxO i
    · subst mine
      rw [asks]
      simp
    · simp [mine]

/-- The port number recomputed from the grants is the one picked. -/
theorem idx_eq (hs : s.mstQhs i = true) : s.idx i = s.idxO i := by
  rw [mstQhs, Bool.and_eq_true] at hs
  obtain ⟨valid, ready⟩ := hs
  have onehot : (fun k => s.reqValidQ i k && s.reqReadyQ i k) = fun k => decide (k = s.idxO i) := by
    funext k
    rw [reqReadyQ_eq kept valid, ready, Bool.true_and]
    by_cases mine : k = s.idxO i
    · subst mine
      rw [(picked kept valid).1]
      rfl
    · rw [decide_eq_false mine, Bool.and_false]
  rw [idx, onehot, P.onehotToBin_eq]

theorem settled_next : P.arb.settled (s.next i).arb =
    if s.mstQvalid i && !i.mstQready then some (s.idxO i) else none := by
  rw [mstQvalid_eq kept]
  exact P.arb.lawful.settles _ _ _ kept

/-- **Nothing is lost in a cut.** -/
theorem cut_next (k : Fin P.NrPorts) : (P.cut k).contents (s.cut k) ++
      (if i.qValid k && s.slvQready i k then [i.q k] else []) =
    (if s.mstQhs i && decide (k = s.idxO i) then [s.reqPayloadQ i k] else []) ++
      (P.cut k).contents ((s.next i).cut k) := by
  rw [← cutHs_eq kept k]
  exact (P.cut k).lawful.conserve _ _ _ _

end Cycle

/-! ## The invariant -/

/-- A request is there in the next cycle too. -/
def Waits (past : List (Obs P Rsp)) (s : Mux P) (k : Fin P.NrPorts) : Prop :=
  (P.cut k).contents (s.cut k) ≠ [] ∨
    (!P.RegisterReq k) = true ∧ ∃ q, waitingOf past k = some q

/-- The queue holds the ports of the unanswered requests; what the arbiter keeps to
keeps requesting. -/
structure Inv (past : List (Obs P Rsp)) (s : Mux P) : Prop where
  kept : ∀ k, P.arb.settled s.arb = some k → s.full = false ∧ Waits past s k
  once : ∀ k, acceptedOf past k = forwardedOf past k ++ (P.cut k).contents (s.cut k)
  routed : ∀ k, deliveredTo past k = responsesTo past k
  pending : (answered past).length ≤ (forwarded past).length
  tickets : 1 < P.NrPorts →
    (Supply.unanswered (forwarded past) (answered past)).map Prod.fst = P.fifo.contents s.fifo

theorem acceptedOf_concat (past : List (Obs P Rsp)) (s : Mux P) (i : MuxIn P Rsp)
    (k : Fin P.NrPorts) : acceptedOf (past ++ [(machine P Rsp).obs s i]) k =
      acceptedOf past k ++ if i.qValid k && s.slvQready i k then [i.q k] else [] := by
  exact filterMap_shown (by rfl) _

theorem forwarded_concat (past : List (Obs P Rsp)) (s : Mux P) (i : MuxIn P Rsp) :
    forwarded (past ++ [(machine P Rsp).obs s i]) = forwarded past ++
      if s.mstQhs i then [(s.idxO i, s.mstQ i)] else [] := by
  exact filterMap_shown (by rfl) _

theorem answered_concat (past : List (Obs P Rsp)) (s : Mux P) (i : MuxIn P Rsp) :
    answered (past ++ [(machine P Rsp).obs s i]) = answered past ++
      if s.mstPhs i then [i.p] else [] := by
  exact filterMap_shown (by rfl) _

theorem deliveredTo_concat (past : List (Obs P Rsp)) (s : Mux P) (i : MuxIn P Rsp)
    (k : Fin P.NrPorts) : deliveredTo (past ++ [(machine P Rsp).obs s i]) k =
      deliveredTo past k ++ if s.slvPvalid i k && i.pReady k then [i.p] else [] := by
  exact filterMap_shown (by rfl) _

theorem waitingOf_concat (past : List (Obs P Rsp)) (s : Mux P) (i : MuxIn P Rsp)
    (k : Fin P.NrPorts) : waitingOf (past ++ [(machine P Rsp).obs s i]) k =
      if i.qValid k && !s.slvQready i k then some (i.q k) else none := by
  rw [waitingOf, List.getLast?_concat]
  rfl

/-- The port a response goes to takes it when the mux does. -/
theorem delivers_eq (s : Mux P) (i : MuxIn P Rsp) (k : Fin P.NrPorts) :
    (s.slvPvalid i k && i.pReady k) = (s.mstPhs i && decide (k = s.idxRsp)) := by
  rw [slvPvalid, mstPhs, mstPready]
  by_cases mine : k = s.idxRsp
  · subst mine
    cases i.mstPvalid <;> simp
  · simp [mine]

theorem inv_init : Inv ([] : List (Obs P Rsp)) (init P) where
  kept k settled := by
    have none : P.arb.settled (init P).arb = none := P.arb.lawful.init
    rw [none] at settled
    exact absurd settled.symm (Option.some_ne_none _)
  once k := (P.cut k).lawful.init.symm
  routed k := rfl
  pending := Nat.le_refl _
  tickets _ := P.fifo.lawful.init.symm

section Step

variable {past : List (Obs P Rsp)} {s : Mux P} {i : MuxIn P Rsp}
  (before : Inv past s) (admitted : inOrder past s i)

include before admitted

theorem Inv.keeps (k : Fin P.NrPorts) (settled : P.arb.settled s.arb = some k) :
    s.reqValidMasked i k = true := by
  obtain ⟨room, waits⟩ := before.kept k settled
  rw [reqValidMasked, room, reqValidQ, (P.cut k).lawful.valid_eq]
  rcases waits with stored | ⟨bypass, q, left⟩
  · rw [List.isEmpty_eq_false_iff.mpr stored]
    rfl
  · have through : (!P.RegisterReq k && i.qValid k) = true := by
      rw [Bool.and_eq_true]
      exact ⟨bypass, (admitted.1 k q left).1⟩
    rw [through, Bool.or_true]
    rfl

/-- A response that comes in is that to the oldest request. -/
theorem Inv.oldest (answers : i.mstPvalid = true) :
    ∃ f later, Supply.unanswered (forwarded past) (answered past) = f :: later ∧
      s.idxRsp = f.1 ∧
      (1 < P.NrPorts → P.fifo.contents s.fifo = f.1 :: later.map Prod.fst) := by
  have some := admitted.2 answers
  have left : Supply.unanswered (forwarded past) (answered past) ≠ [] := by
    rw [Supply.unanswered, ne_eq, List.drop_eq_nil_iff]
    omega
  obtain ⟨f, later, first⟩ := List.exists_cons_of_ne_nil left
  refine ⟨f, later, first, ?_, ?_⟩
  · rw [idxRsp]
    by_cases several : 1 < P.NrPorts
    · have stored := before.tickets several
      rw [first] at stored
      rw [if_pos several]
      exact P.fifo.lawful.data_head _ _ _ stored.symm
    · rw [if_neg several]
      have one := f.1.isLt
      exact Fin.ext (by show 0 = f.1.val; omega)
  · intro several
    rw [← before.tickets several, first]
    rfl

/-- The routing queue is used within its bounds. -/
theorem Inv.bounds (several : 1 < P.NrPorts) :
    (s.mstQhs i = true → P.fifo.full s.fifo = false) ∧
      (s.mstPhs i = true → P.fifo.empty s.fifo = false) := by
  constructor
  · intro hs
    rw [mstQhs, Bool.and_eq_true] at hs
    have room := (picked (before.keeps admitted) hs.1).2
    rwa [full, decide_eq_true several, Bool.true_and] at room
  · intro hs
    rw [mstPhs, Bool.and_eq_true] at hs
    obtain ⟨f, later, _, _, stored⟩ := before.oldest admitted hs.2
    rw [P.fifo.lawful.empty_eq_isEmpty, stored several]
    rfl

theorem Inv.contents_next (several : 1 < P.NrPorts) : P.fifo.contents (s.next i).fifo =
    (if s.mstPhs i then (P.fifo.contents s.fifo).tail else P.fifo.contents s.fifo) ++
      if s.mstQhs i then [s.idxO i] else [] := by
  obtain ⟨room, some⟩ := before.bounds admitted several
  have stored : (s.next i).fifo =
      P.fifo.next s.fifo false (s.mstQhs i) (s.idx i) (s.mstPhs i) := if_pos several
  rw [stored, P.fifo.lawful.next _ _ _ _ room some]
  cases hs : s.mstQhs i with
  | false => rfl
  | true => rw [idx_eq (before.keeps admitted) hs]

/-- A request that is not taken is there in the next cycle. -/
theorem Inv.waits_next (valid : s.mstQvalid i = true) (refused : i.mstQready = false) :
    (s.next i).full = false ∧
      Waits (past ++ [(machine P Rsp).obs s i]) (s.next i) (s.idxO i) := by
  have keeps := before.keeps admitted
  obtain ⟨asks, room⟩ := picked keeps valid
  have still : s.mstQhs i = false := by rw [mstQhs, refused, Bool.and_false]
  constructor
  · by_cases several : 1 < P.NrPorts
    · rw [full, decide_eq_true several, Bool.true_and, P.fifo.lawful.full_eq_decide,
        decide_eq_false_iff_not] at room
      rw [full, decide_eq_true several, Bool.true_and, P.fifo.lawful.full_eq_decide,
        decide_eq_false_iff_not, before.contents_next admitted several, still]
      intro spent
      apply room
      refine Nat.le_trans spent ?_
      rw [if_neg Bool.false_ne_true, List.append_nil]
      split
      · rw [List.length_tail]
        omega
      · exact Nat.le_refl _
    · rw [full, decide_eq_false several, Bool.false_and]
  · have kept := cut_next keeps (s.idxO i)
    rw [still, Bool.false_and, if_neg Bool.false_ne_true, List.nil_append] at kept
    rw [reqValidQ, (P.cut (s.idxO i)).lawful.valid_eq, Bool.or_eq_true, Bool.and_eq_true,
      Bool.not_eq_true', List.isEmpty_eq_false_iff] at asks
    rcases asks with stored | ⟨bypass, offered⟩
    · left
      rw [← kept]
      intro none
      exact stored (List.append_eq_nil_iff.mp none).1
    · right
      have ready : s.slvQready i (s.idxO i) = false := by
        rw [slvQready, (P.cut (s.idxO i)).lawful.wire_ready bypass, reqReadyMasked,
          reqReadyQ_eq keeps valid, refused]
        rfl
      refine ⟨bypass, i.q (s.idxO i), ?_⟩
      rw [waitingOf_concat, offered, ready]
      rfl

/-- **The invariant survives a cycle.** -/
theorem Inv.next : Inv (past ++ [(machine P Rsp).obs s i]) (s.next i) where
  kept k settled := by
    rw [settled_next (before.keeps admitted)] at settled
    split at settled
    · rename_i left
      rw [Bool.and_eq_true, Bool.not_eq_true'] at left
      obtain rfl := Option.some.inj settled
      exact before.waits_next admitted left.1 left.2
    · exact absurd settled.symm (Option.some_ne_none _)
  once k := by
    have keeps := before.keeps admitted
    have kept := cut_next keeps k
    have gets : forwardedOf (past ++ [(machine P Rsp).obs s i]) k = forwardedOf past k ++
        if s.mstQhs i && decide (k = s.idxO i) then [s.reqPayloadQ i k] else [] := by
      rw [forwardedOf, forwarded_concat, List.filterMap_append, forwardedOf]
      congr 1
      cases s.mstQhs i with
      | false => simp
      | true =>
        by_cases mine : k = s.idxO i
        · subst mine
          simp [mstQ]
        · simp [mine, Ne.symm mine]
    rw [acceptedOf_concat, before.once, gets, List.append_assoc, kept, List.append_assoc]
  routed k := by
    rw [deliveredTo_concat, delivers_eq, before.routed, responsesTo, responsesTo, forwarded_concat,
      answered_concat]
    cases hs : s.mstPhs i with
    | false =>
      rw [if_neg Bool.false_ne_true, List.append_nil, Supply.zip_ask before.pending]
      simp
    | true =>
      rw [mstPhs, Bool.and_eq_true] at hs
      obtain ⟨f, later, first, shown, _⟩ := before.oldest admitted hs.2
      have more := Supply.unanswered_ask before.pending
        (if s.mstQhs i then [(s.idxO i, s.mstQ i)] else [])
      rw [first] at more
      rw [if_pos rfl, Supply.zip_answer more, Supply.zip_ask before.pending,
        List.filterMap_append, Bool.true_and, shown]
      congr 1
      by_cases mine : k = f.1
      · subst mine
        simp
      · simp [mine, Ne.symm mine]
  pending := by
    have count := before.pending
    rw [answered_concat, forwarded_concat, List.length_append, List.length_append]
    cases hs : s.mstPhs i with
    | false =>
      rw [if_neg Bool.false_ne_true, List.length_nil]
      omega
    | true =>
      rw [mstPhs, Bool.and_eq_true] at hs
      have some := admitted.2 hs.2
      rw [if_pos rfl, List.length_singleton]
      omega
  tickets several := by
    have asked := Supply.unanswered_ask before.pending
      (if s.mstQhs i then [(s.idxO i, s.mstQ i)] else [])
    have out : (if s.mstQhs i then [(s.idxO i, s.mstQ i)] else []).map Prod.fst =
        if s.mstQhs i then [s.idxO i] else [] := by
      cases s.mstQhs i <;> rfl
    rw [before.contents_next admitted several, answered_concat, forwarded_concat]
    cases hs : s.mstPhs i with
    | false =>
      rw [if_neg Bool.false_ne_true, if_neg Bool.false_ne_true, List.append_nil, asked,
        List.map_append, before.tickets several, out]
    | true =>
      rw [mstPhs, Bool.and_eq_true] at hs
      obtain ⟨f, later, first, _, stored⟩ := before.oldest admitted hs.2
      rw [first, List.cons_append] at asked
      rw [if_pos rfl, if_pos rfl, Supply.unanswered_answer asked, List.map_append, out,
        stored several]
      rfl

end Step

/-- **Routing.**  For any number of ports, any depth, cut or uncut, any requests held
until taken, any arbitration, any stalls on either side and any other side that
answers in order: the requests of each port go out once and in order, each port gets
the responses to its own requests, in its own order, and the routing queue neither
overflows nor runs empty. -/
theorem requests_routed_back {past : List (Obs P Rsp)} {s : Mux P}
    (reached : (machine P Rsp).Reaches inOrder (init P) past s) : Routed past s := by
  have inv : Inv past s := by
    apply reached.invariant Inv inv_init
    intro past s i _ before admitted
    exact before.next admitted
  exact ⟨inv.once, inv.routed, inv.pending, fun several i admitted =>
    inv.bounds admitted several⟩

/-! ## Two ports -/

/-- Two ports, the second one cut, and room for one response. -/
abbrev pair : MuxParts Nat where
  NrPorts := 2
  RespDepth := 1
  RegisterReq k := k == 1
  cut _ := .ofList _
  arb := .lowest 1
  fifo := .ofList 1 0
  onehotToBin v := if v 1 then 1 else 0
  ports_pos := Nat.two_pos
  onehotToBin_eq := by decide

/-- Both ports ask at once; the second request goes out when the first is answered. -/
def twoRequests : List (MuxIn pair Nat) :=
  [{ qValid := fun _ => true, q := fun k => k.val, pReady := fun _ => true, mstQready := true,
      mstPvalid := false, p := 0 },
    { qValid := fun _ => false, q := fun _ => 0, pReady := fun _ => true, mstQready := true,
      mstPvalid := true, p := 7 },
    { qValid := fun _ => false, q := fun _ => 0, pReady := fun _ => true, mstQready := true,
      mstPvalid := false, p := 0 },
    { qValid := fun _ => false, q := fun _ => 0, pReady := fun _ => true, mstQready := true,
      mstPvalid := true, p := 8 }]

theorem requests_routed_back_pair :
    deliveredTo ((machine pair Nat).trace (init pair) twoRequests) 1 = [8] ∧
      Routed ((machine pair Nat).trace (init pair) twoRequests)
        ((machine pair Nat).run (init pair) twoRequests) := by
  refine ⟨by decide, requests_routed_back ((machine pair Nat).reaches_run (init pair) twoRequests
    ⟨⟨?_, ?_⟩, ⟨?_, ?_⟩, ⟨?_, ?_⟩, ⟨?_, ?_⟩, trivial⟩)⟩
  all_goals decide

end Mux

end SnitchCluster.Reqrsp
