/-
# Tcdm.Mux -- several requesters on one memory port

`tcdm_mux` with more than one port: an arbiter picks a request, a fork hands it to
the memory and its port number to a queue, and a response goes to the port at the
head of the queue.  Memory and queue may take their part in different cycles, and
the response channel cannot be stalled, so the number has to be in the queue by the
time the response is there.

`responses_routed`: with room for two numbers it always is, with room for one it is
not.
-/
import SnitchCluster.Theory.Clocked
import SnitchCluster.Theory.Streams

namespace SnitchCluster.Tcdm

open Theory

/-- The sizes and cells. -/
structure MuxParts where
  NrPorts : Nat
  RespDepth : Nat
  arb : LawfulArbiter NrPorts
  fork : LawfulFork 2
  fifo : LawfulFifo (Fin NrPorts) RespDepth

/-- The registers are those of the cells. -/
structure Mux (P : MuxParts) where
  arb : P.arb.State
  fork : P.fork.State
  fifo : P.fifo.State

def Mux.init (P : MuxParts) : Mux P := ⟨P.arb.init, P.fork.init, P.fifo.init⟩

/-- The inputs of a cycle: the requests of the ports and the answer of the memory. -/
structure MuxIn (P : MuxParts) (Req Data : Type) where
  qValid : Fin P.NrPorts → Bool
  q : Fin P.NrPorts → Req
  qReady : Bool
  pValid : Bool
  data : Data

namespace Mux

variable {P : MuxParts} {Req Data : Type} (s : Mux P) (i : MuxIn P Req Data)

/-! ## Wires -/

def rrValid : Bool := P.arb.valid s.arb i.qValid

/-- `fifo_in_select`. -/
def fifoInSelect : Fin P.NrPorts := P.arb.idx s.arb i.qValid

def fifoReady : Bool := !P.fifo.full s.fifo

/-- What the fork sees of its takers: the memory and the queue. -/
def forkReady (k : Fin 2) : Bool := if k = 0 then i.qReady else s.fifoReady

def rrReady : Bool := P.fork.ready s.fork (s.rrValid i) (s.forkReady i)

/-- `mst_req_o.q_valid`. -/
def mstQvalid : Bool := P.fork.valid s.fork (s.rrValid i) 0

def fifoValid : Bool := P.fork.valid s.fork (s.rrValid i) 1

/-- `mst_req_o.q`. -/
def mstQ : Req := i.q (s.fifoInSelect i)

/-- `slv_rsp_o[k].q_ready`. -/
def slvQready (k : Fin P.NrPorts) : Bool := P.arb.grant s.arb i.qValid (s.rrReady i) k

/-- `fifo_out_select`. -/
def fifoOutSelect : Fin P.NrPorts := P.fifo.data s.fifo

/-- `slv_rsp_o[k].p_valid`. -/
def slvPvalid (k : Fin P.NrPorts) : Bool := decide (k = s.fifoOutSelect) && i.pValid

def fifoPush : Bool := s.fifoValid i && s.fifoReady

def fifoPop : Bool := i.pValid && !P.fifo.empty s.fifo

def next : Mux P where
  arb := P.arb.next s.arb i.qValid (s.rrReady i)
  fork := P.fork.next s.fork (s.rrValid i) (s.forkReady i)
  fifo := P.fifo.next s.fifo false (s.fifoPush i) (s.fifoInSelect i) (s.fifoPop i)

/-! ## Runs -/

/-- What a cycle shows: the requests acknowledged and those left waiting at the ports,
the request the memory accepts with the port it comes from, and the response with
the ports it is valid for. -/
structure Obs (P : MuxParts) (Req Data : Type) where
  accepted : Fin P.NrPorts → Option Req
  waiting : Fin P.NrPorts → Option Req
  forwarded : Option (Fin P.NrPorts × Req)
  delivered : Option ((Fin P.NrPorts → Bool) × Data)

def machine (P : MuxParts) (Req Data : Type) :
    Machine (Mux P) (MuxIn P Req Data) (Obs P Req Data) where
  obs s i :=
    { accepted := fun k => if i.qValid k && s.slvQready i k then some (i.q k) else none
      waiting := fun k => if i.qValid k && !s.slvQready i k then some (i.q k) else none
      forwarded := if s.mstQvalid i && i.qReady then some (s.fifoInSelect i, s.mstQ i) else none
      delivered := if i.pValid then some (s.slvPvalid i, i.data) else none }
  next := next

section Past

variable (past : List (Obs P Req Data))

/-- The requests of a port that were acknowledged. -/
def acceptedOf (k : Fin P.NrPorts) : List Req := past.filterMap fun o => o.accepted k

/-- The requests the memory has accepted, each with its port. -/
def forwarded : List (Fin P.NrPorts × Req) := past.filterMap Obs.forwarded

def forwardedOf (k : Fin P.NrPorts) : List Req :=
  (forwarded past).filterMap fun f => if f.1 = k then some f.2 else none

/-- The responses, each with the ports it was valid for. -/
def delivered : List ((Fin P.NrPorts → Bool) × Data) := past.filterMap Obs.delivered

/-- The request a port was left with in the last cycle. -/
def waitingOf (k : Fin P.NrPorts) : Option Req := past.getLast?.bind fun o => o.waiting k

end Past

/-- Requests are held until they are acknowledged, and the memory answers each request
it accepted in an earlier cycle once and in order. -/
def memory : Machine.Env (Mux P) (MuxIn P Req Data) (Obs P Req Data) := fun past _ i =>
  (∀ k q, waitingOf past k = some q → i.qValid k = true ∧ i.q k = q) ∧
    (i.pValid = true → (delivered past).length < (forwarded past).length)

/-- Besides, no response comes while the queue of port numbers is empty. -/
def timely : Machine.Env (Mux P) (MuxIn P Req Data) (Obs P Req Data) := fun past s i =>
  memory past s i ∧ (i.pValid = true → P.fifo.empty s.fifo = false)

/-- The request the fork is working on, if the memory has accepted it already. -/
def inHand (past : List (Obs P Req Data)) (s : Mux P) (k : Fin P.NrPorts) : List Req :=
  if P.fork.served s.fork 0 = true ∧ P.arb.settled s.arb = some k then
    (waitingOf past k).toList
  else []

/-- The bookkeeping of a run: the memory gets the requests of each port once and in
order, and each response is valid for the port whose request it answers and for no
other. -/
structure Matched (past : List (Obs P Req Data)) (s : Mux P) : Prop where
  once : ∀ k, forwardedOf past k = acceptedOf past k ++ inHand past s k
  routed : (delivered past).map Prod.fst =
    ((forwarded past).take (delivered past).length).map fun f k => decide (k = f.1)

/-- Besides, the queue is not popped while it is empty. -/
structure Routed (past : List (Obs P Req Data)) (s : Mux P) : Prop extends Matched past s where
  stocked : ∀ i, memory past s i → i.pValid = true → P.fifo.empty s.fifo = false

/-! ## One cycle -/

section Cycle

variable {s i}

theorem rrReady_eq : s.rrReady i =
    (s.rrValid i && ((P.fork.served s.fork 0 || i.qReady) &&
      (P.fork.served s.fork 1 || s.fifoReady))) := by
  rw [rrReady, P.fork.lawful.ready_eq]
  have two : List.finRange 2 = [0, 1] := by decide
  rw [two]
  simp [forkReady]

theorem mstQvalid_eq : s.mstQvalid i = (s.rrValid i && !P.fork.served s.fork 0) :=
  P.fork.lawful.valid_eq _ _ _

theorem fifoPush_eq : s.fifoPush i =
    (s.rrValid i && !P.fork.served s.fork 1 && s.fifoReady) := by
  rw [fifoPush, fifoValid, P.fork.lawful.valid_eq]

theorem served_next (k : Fin 2) : P.fork.served (s.next i).fork k =
    if s.rrReady i then false
    else P.fork.served s.fork k || (s.rrValid i && s.forkReady i k) :=
  P.fork.lawful.next_eq _ _ _ _

variable (kept : ∀ k, P.arb.settled s.arb = some k → i.qValid k = true)

include kept

theorem rrValid_eq : s.rrValid i = anyReq i.qValid := P.arb.lawful.valid_eq _ _ kept

theorem settled_next : P.arb.settled (s.next i).arb =
    if s.rrValid i && !s.rrReady i then some (s.fifoInSelect i) else none := by
  rw [rrValid_eq kept]
  exact P.arb.lawful.settles _ _ _ kept

/-- The request picked is there. -/
theorem qValid_select (some : s.rrValid i = true) : i.qValid (s.fifoInSelect i) = true := by
  rw [rrValid_eq kept] at some
  exact P.arb.lawful.chosen _ _ kept some

/-- The arbiter keeps to its choice. -/
theorem select_of_settled {k : Fin P.NrPorts} (settled : P.arb.settled s.arb = some k) :
    s.fifoInSelect i = k := P.arb.lawful.keeps _ _ _ settled (kept k settled)

/-- The request picked is acknowledged when memory and queue have it. -/
theorem acknowledged_eq (k : Fin P.NrPorts) : (i.qValid k && s.slvQready i k) =
    (s.rrReady i && decide (k = s.fifoInSelect i)) := by
  cases some : s.rrValid i with
  | false =>
    have quiet : i.qValid k = false := by
      rw [rrValid_eq kept, ← Bool.not_eq_true, anyReq_iff] at some
      rw [← Bool.not_eq_true]
      exact fun asks => some ⟨k, asks⟩
    rw [quiet, rrReady_eq, some]
    rfl
  | true =>
    have requested : anyReq i.qValid = true := (rrValid_eq kept).symm.trans some
    have grant : s.slvQready i k = (s.rrReady i && decide (k = s.fifoInSelect i)) :=
      P.arb.lawful.grants _ _ _ kept requested k
    rw [grant]
    by_cases picked : k = s.fifoInSelect i
    · rw [picked, qValid_select kept some]
      rfl
    · rw [decide_eq_false picked]
      simp

end Cycle

/-! ## The invariant -/

/-- The ports whose requests the memory has accepted and not answered. -/
def unanswered (past : List (Obs P Req Data)) : List (Fin P.NrPorts) :=
  ((forwarded past).drop (delivered past).length).map Prod.fst

/-- The port whose request one taker of the fork has and the other has not. -/
def ahead (s : Mux P) (taker : Fin 2) : List (Fin P.NrPorts) :=
  if P.fork.served s.fork taker then (P.arb.settled s.arb).toList else []

/-- The queue holds the ports of the unanswered requests, but for the request the fork
is working on. -/
structure Inv (past : List (Obs P Req Data)) (s : Mux P) : Prop extends Matched past s where
  kept : ∀ k, P.arb.settled s.arb = some k → ∃ q, waitingOf past k = some q
  busy : ∀ taker, P.fork.served s.fork taker = true → ∃ k, P.arb.settled s.arb = some k
  apart : ¬(P.fork.served s.fork 0 = true ∧ P.fork.served s.fork 1 = true)
  tickets : unanswered past ++ ahead s 1 = P.fifo.contents s.fifo ++ ahead s 0
  answered : (delivered past).length ≤ (forwarded past).length

theorem forwarded_concat (past : List (Obs P Req Data)) (s : Mux P) (i : MuxIn P Req Data) :
    forwarded (past ++ [(machine P Req Data).obs s i]) = forwarded past ++
      if s.mstQvalid i && i.qReady then [(s.fifoInSelect i, s.mstQ i)] else [] := by
  exact filterMap_shown (by rfl) _

theorem delivered_concat (past : List (Obs P Req Data)) (s : Mux P) (i : MuxIn P Req Data) :
    delivered (past ++ [(machine P Req Data).obs s i]) = delivered past ++
      if i.pValid then [(s.slvPvalid i, i.data)] else [] := by
  exact filterMap_shown (by rfl) _

theorem acceptedOf_concat (past : List (Obs P Req Data)) (s : Mux P) (i : MuxIn P Req Data)
    (k : Fin P.NrPorts) : acceptedOf (past ++ [(machine P Req Data).obs s i]) k =
      acceptedOf past k ++ if i.qValid k && s.slvQready i k then [i.q k] else [] := by
  exact filterMap_shown (by rfl) _

theorem waitingOf_concat (past : List (Obs P Req Data)) (s : Mux P) (i : MuxIn P Req Data)
    (k : Fin P.NrPorts) : waitingOf (past ++ [(machine P Req Data).obs s i]) k =
      if i.qValid k && !s.slvQready i k then some (i.q k) else none := by
  rw [waitingOf, List.getLast?_concat]
  rfl

theorem inv_init : Inv ([] : List (Obs P Req Data)) (init P) where
  kept k settled := by
    have none : P.arb.settled (init P).arb = none := P.arb.lawful.init
    rw [none] at settled
    exact absurd settled.symm (Option.some_ne_none _)
  busy taker served := by
    have idle : P.fork.served (init P).fork taker = false := P.fork.lawful.init taker
    rw [idle] at served
    exact Bool.noConfusion served
  apart both := by
    have idle : P.fork.served (init P).fork 0 = false := P.fork.lawful.init 0
    rw [idle] at both
    exact Bool.noConfusion both.1
  tickets := by
    have idle : ∀ taker, ahead (init P) taker = [] := by
      intro taker
      have unserved : P.fork.served (init P).fork taker = false := P.fork.lawful.init taker
      rw [ahead, unserved]
      rfl
    have stored : P.fifo.contents (init P).fifo = [] := P.fifo.lawful.init
    rw [idle, idle, stored]
    rfl
  answered := Nat.le_refl _
  once k := by
    have unserved : ¬(P.fork.served (init P).fork 0 = true ∧
        P.arb.settled (init P).arb = some k) := by
      rintro ⟨served, _⟩
      have idle : P.fork.served (init P).fork 0 = false := P.fork.lawful.init 0
      rw [idle] at served
      exact Bool.noConfusion served
    rw [inHand, if_neg unserved]
    rfl
  routed := rfl

/-! ## The invariant holds -/

/-- A list that holds for `b` only. -/
def only {α : Type} (b : Bool) (x : α) : List α := if b then [x] else []

/-- One item in a fork: what either taker got before and gets now adds up. -/
theorem fork_balance {α : Type} {U C : List α} {x : α} {v g0 g1 r0 r1 : Bool}
    (apart : ¬(g0 = true ∧ g1 = true)) (busy : g0 = true ∨ g1 = true → v = true)
    (balance : U ++ only g1 x = C ++ only g0 x) :
    U ++ only (v && !g0 && r0) x ++
        only (if v && ((g0 || r0) && (g1 || r1)) then false else g1 || (v && r1)) x =
      C ++ only (v && !g1 && r1) x ++
        only (if v && ((g0 || r0) && (g1 || r1)) then false else g0 || (v && r0)) x := by
  cases v with
  | false =>
    cases g0 with
    | true => exact absurd (busy (Or.inl rfl)) Bool.false_ne_true
    | false =>
      cases g1 with
      | true => exact absurd (busy (Or.inr rfl)) Bool.false_ne_true
      | false => simpa [only] using balance
  | true =>
    cases g0 with
    | true =>
      cases g1 with
      | true => exact absurd ⟨rfl, rfl⟩ apart
      | false => cases r0 <;> cases r1 <;> simpa [only] using balance
    | false => cases g1 <;> cases r0 <;> cases r1 <;> simpa [only] using balance

section Step

variable {past : List (Obs P Req Data)} {s : Mux P} {i : MuxIn P Req Data}
  (before : Inv past s) (admitted : timely past s i)

include before admitted

theorem Inv.requested (k : Fin P.NrPorts) (settled : P.arb.settled s.arb = some k) :
    i.qValid k = true ∧ waitingOf past k = some (i.q k) := by
  obtain ⟨q, waits⟩ := before.kept k settled
  obtain ⟨valid, same⟩ := admitted.1.1 k q waits
  exact ⟨valid, by rw [waits, same]⟩

theorem Inv.keeps (k : Fin P.NrPorts) (settled : P.arb.settled s.arb = some k) :
    i.qValid k = true := (before.requested admitted k settled).1

/-- A fork at work has the request that is picked. -/
theorem Inv.picked {taker : Fin 2} (served : P.fork.served s.fork taker = true) :
    P.arb.settled s.arb = some (s.fifoInSelect i) ∧ s.rrValid i = true := by
  obtain ⟨k, settled⟩ := before.busy taker served
  have keeps := before.keeps admitted
  have same := select_of_settled keeps settled
  refine ⟨by rw [settled, same], ?_⟩
  rw [rrValid_eq keeps, anyReq_iff]
  exact ⟨k, keeps k settled⟩

theorem Inv.ahead_eq (taker : Fin 2) :
    ahead s taker = only (P.fork.served s.fork taker) (s.fifoInSelect i) := by
  rw [ahead, only]
  cases served : P.fork.served s.fork taker with
  | false => rfl
  | true =>
    rw [if_pos rfl, (before.picked admitted served).1]
    rfl

/-- What the fork leaves undone it goes on with. -/
theorem Inv.settled_of_served {taker : Fin 2}
    (served : P.fork.served (s.next i).fork taker = true) :
    s.rrValid i = true ∧ s.rrReady i = false ∧
      P.arb.settled (s.next i).arb = some (s.fifoInSelect i) := by
  rw [served_next] at served
  cases done : s.rrReady i with
  | true =>
    rw [done, if_pos rfl] at served
    exact Bool.noConfusion served
  | false =>
    rw [done, if_neg Bool.false_ne_true, Bool.or_eq_true, Bool.and_eq_true] at served
    have valid : s.rrValid i = true := by
      rcases served with served | ⟨valid, _⟩
      · exact (before.picked admitted served).2
      · exact valid
    refine ⟨valid, rfl, ?_⟩
    rw [settled_next (before.keeps admitted), valid, done]
    rfl

theorem Inv.ahead_next (taker : Fin 2) : ahead (s.next i) taker =
    only (P.fork.served (s.next i).fork taker) (s.fifoInSelect i) := by
  rw [ahead, only]
  cases served : P.fork.served (s.next i).fork taker with
  | false => rfl
  | true =>
    rw [if_pos rfl, (before.settled_of_served admitted served).2.2]
    rfl

theorem Inv.waiting_next (valid : s.rrValid i = true) (undone : s.rrReady i = false) :
    waitingOf (past ++ [(machine P Req Data).obs s i]) (s.fifoInSelect i) =
      some (i.q (s.fifoInSelect i)) := by
  have keeps := before.keeps admitted
  have asks := qValid_select keeps valid
  have refused := acknowledged_eq keeps (s.fifoInSelect i)
  rw [undone, asks, Bool.true_and, Bool.false_and] at refused
  rw [waitingOf_concat, asks, refused]
  rfl

/-- A response pops the head of the queue, which is the port it is for. -/
theorem Inv.responds (answers : i.pValid = true) :
    ∃ f later, (forwarded past).drop (delivered past).length = f :: later ∧
      P.fifo.contents s.fifo = s.fifoOutSelect :: (P.fifo.contents s.fifo).tail ∧
      s.fifoOutSelect = f.1 ∧
      later.map Prod.fst ++ ahead s 1 = (P.fifo.contents s.fifo).tail ++ ahead s 0 := by
  have pending := admitted.1.2 answers
  have stocked := admitted.2 answers
  rw [P.fifo.lawful.empty_eq_isEmpty, List.isEmpty_eq_false_iff] at stocked
  obtain ⟨x, rest, stored⟩ := List.exists_cons_of_ne_nil stocked
  have shown : s.fifoOutSelect = x := P.fifo.lawful.data_head _ _ _ stored
  have some : (forwarded past).drop (delivered past).length ≠ [] := by
    rw [ne_eq, List.drop_eq_nil_iff]
    omega
  obtain ⟨f, later, first⟩ := List.exists_cons_of_ne_nil some
  have tickets := before.tickets
  rw [unanswered, first, stored] at tickets
  obtain ⟨same, others⟩ := List.cons.inj tickets
  refine ⟨f, later, first, ?_, ?_, ?_⟩
  · rw [stored, shown]
    rfl
  · rw [shown, same]
  · rw [stored]
    exact others

omit before in
theorem contents_next : P.fifo.contents (s.next i).fifo =
    (if i.pValid then (P.fifo.contents s.fifo).tail else P.fifo.contents s.fifo) ++
      only (s.rrValid i && !P.fork.served s.fork 1 && s.fifoReady) (s.fifoInSelect i) := by
  have pop : s.fifoPop i = i.pValid := by
    rw [fifoPop]
    cases answers : i.pValid with
    | false => rfl
    | true =>
      rw [admitted.2 answers]
      rfl
  have room : s.fifoPush i = true → P.fifo.full s.fifo = false := by
    intro push
    rw [fifoPush, Bool.and_eq_true, fifoReady, Bool.not_eq_true'] at push
    exact push.2
  have some : s.fifoPop i = true → P.fifo.empty s.fifo = false := by
    intro pops
    rw [pop] at pops
    exact admitted.2 pops
  rw [only, ← fifoPush_eq, ← pop]
  exact P.fifo.lawful.next _ _ _ _ room some

theorem Inv.unanswered_next : unanswered (past ++ [(machine P Req Data).obs s i]) =
    (if i.pValid then (unanswered past).tail else unanswered past) ++
      only (s.rrValid i && !P.fork.served s.fork 0 && i.qReady) (s.fifoInSelect i) := by
  have forwards : (s.mstQvalid i && i.qReady) =
      (s.rrValid i && !P.fork.served s.fork 0 && i.qReady) := by rw [mstQvalid_eq]
  rw [unanswered, forwarded_concat, delivered_concat, forwards]
  cases answers : i.pValid with
  | false =>
    have count := before.answered
    rw [if_neg Bool.false_ne_true, if_neg Bool.false_ne_true, List.append_nil,
      List.drop_append_of_le_length count, List.map_append, unanswered]
    congr 1
    cases s.rrValid i && !P.fork.served s.fork 0 && i.qReady <;> rfl
  | true =>
    have pending := admitted.1.2 answers
    rw [if_pos rfl, if_pos rfl, List.length_append, List.length_singleton,
      List.drop_append_of_le_length pending, List.map_append, unanswered, ← List.map_tail,
      List.tail_drop]
    congr 1
    cases s.rrValid i && !P.fork.served s.fork 0 && i.qReady <;> rfl

/-- The part of the request in hand, before ... -/
theorem Inv.inHand_eq (k : Fin P.NrPorts) : inHand past s k =
    if P.fork.served s.fork 0 then (if s.fifoInSelect i = k then [i.q k] else []) else [] := by
  rw [inHand]
  cases served : P.fork.served s.fork 0 with
  | false => simp
  | true =>
    have settled := (before.picked admitted served).1
    rw [settled]
    by_cases mine : s.fifoInSelect i = k
    · subst mine
      rw [(before.requested admitted _ settled).2]
      simp
    · simp [mine]

/-- ... and after the cycle. -/
theorem Inv.inHand_next (k : Fin P.NrPorts) :
    inHand (past ++ [(machine P Req Data).obs s i]) (s.next i) k =
      if P.fork.served (s.next i).fork 0 then
        (if s.fifoInSelect i = k then [i.q k] else []) else [] := by
  rw [inHand]
  cases served : P.fork.served (s.next i).fork 0 with
  | false => simp
  | true =>
    obtain ⟨valid, undone, settled⟩ := before.settled_of_served admitted served
    rw [settled]
    by_cases mine : s.fifoInSelect i = k
    · subst mine
      rw [before.waiting_next admitted valid undone]
      simp
    · simp [mine]

omit before admitted in
theorem forwardedOf_next (k : Fin P.NrPorts) :
    forwardedOf (past ++ [(machine P Req Data).obs s i]) k = forwardedOf past k ++
      if s.rrValid i && !P.fork.served s.fork 0 && i.qReady then
        (if s.fifoInSelect i = k then [i.q k] else []) else [] := by
  rw [forwardedOf, forwarded_concat, List.filterMap_append, forwardedOf, mstQvalid_eq]
  congr 1
  cases s.rrValid i && !P.fork.served s.fork 0 && i.qReady with
  | false => rfl
  | true =>
    rw [if_pos rfl, if_pos rfl, List.filterMap_cons, mstQ]
    by_cases mine : s.fifoInSelect i = k
    · subst mine
      simp
    · simp [mine]

theorem Inv.acceptedOf_next (k : Fin P.NrPorts) :
    acceptedOf (past ++ [(machine P Req Data).obs s i]) k = acceptedOf past k ++
      if s.rrReady i then (if s.fifoInSelect i = k then [i.q k] else []) else [] := by
  rw [acceptedOf_concat, acknowledged_eq (before.keeps admitted)]
  congr 1
  cases s.rrReady i with
  | false => simp
  | true =>
    by_cases mine : s.fifoInSelect i = k
    · simp [mine]
    · simp [mine, Ne.symm mine]

/-- **The invariant survives a cycle.** -/
theorem Inv.next : Inv (past ++ [(machine P Req Data).obs s i]) (s.next i) where
  kept k settled := by
    have keeps := before.keeps admitted
    rw [settled_next keeps] at settled
    cases valid : s.rrValid i with
    | false =>
      rw [valid] at settled
      exact absurd settled.symm (Option.some_ne_none _)
    | true =>
      cases done : s.rrReady i with
      | true =>
        rw [valid, done] at settled
        exact absurd settled.symm (Option.some_ne_none _)
      | false =>
        rw [valid, done] at settled
        obtain rfl := Option.some.inj settled
        exact ⟨_, before.waiting_next admitted valid done⟩
  busy taker served := ⟨_, (before.settled_of_served admitted served).2.2⟩
  apart := by
    rintro ⟨first, second⟩
    obtain ⟨valid, undone, _⟩ := before.settled_of_served admitted first
    rw [served_next, undone, if_neg Bool.false_ne_true, valid] at first second
    rw [rrReady_eq, valid] at undone
    have both : (P.fork.served s.fork 0 || i.qReady) = true := first
    have queued : (P.fork.served s.fork 1 || s.fifoReady) = true := second
    rw [both, queued] at undone
    exact Bool.noConfusion undone
  tickets := by
    have balance := before.tickets
    rw [before.ahead_eq admitted, before.ahead_eq admitted] at balance
    have moved : (if i.pValid then (unanswered past).tail else unanswered past) ++
          only (P.fork.served s.fork 1) (s.fifoInSelect i) =
        (if i.pValid then (P.fifo.contents s.fifo).tail else P.fifo.contents s.fifo) ++
          only (P.fork.served s.fork 0) (s.fifoInSelect i) := by
      cases answers : i.pValid with
      | false => exact balance
      | true =>
        obtain ⟨f, later, first, _, _, others⟩ := before.responds admitted answers
        rw [if_pos rfl, if_pos rfl, ← before.ahead_eq admitted, ← before.ahead_eq admitted,
          ← others, unanswered, first]
        rfl
    rw [before.unanswered_next admitted, contents_next admitted,
      before.ahead_next admitted, before.ahead_next admitted, served_next, served_next, rrReady_eq]
    apply fork_balance before.apart _ moved
    rintro (served | served)
    · exact (before.picked admitted served).2
    · exact (before.picked admitted served).2
  answered := by
    have count := before.answered
    rw [delivered_concat, forwarded_concat, List.length_append, List.length_append]
    cases answers : i.pValid with
    | false =>
      rw [if_neg Bool.false_ne_true, List.length_nil]
      omega
    | true =>
      have pending := admitted.1.2 answers
      rw [if_pos rfl, List.length_singleton]
      omega
  once k := by
    have busy : P.fork.served s.fork 0 = true → s.rrValid i = true :=
      fun served => (before.picked admitted served).2
    rw [forwardedOf_next, before.acceptedOf_next admitted,
      before.inHand_next admitted, before.once, before.inHand_eq admitted, served_next, rrReady_eq]
    generalize (if s.fifoInSelect i = k then [i.q k] else []) = own
    show _ = _ ++ if (if _ then false else P.fork.served s.fork 0 || (s.rrValid i && i.qReady)) then
      own else []
    revert busy
    cases P.fork.served s.fork 0 <;> cases s.rrValid i <;> cases i.qReady <;>
      cases P.fork.served s.fork 1 <;> cases s.fifoReady <;> simp
  routed := by
    have count := before.answered
    rw [delivered_concat, forwarded_concat, List.map_append, before.routed, List.length_append]
    cases answers : i.pValid with
    | false =>
      rw [if_neg Bool.false_ne_true, List.map_nil, List.append_nil, List.length_nil,
        Nat.add_zero, List.take_append_of_le_length count]
    | true =>
      have pending := admitted.1.2 answers
      obtain ⟨f, later, first, _, shown, _⟩ := before.responds admitted answers
      have here : (forwarded past)[(delivered past).length]? = some f := by
        have head := congrArg List.head? first
        rwa [List.head?_drop] at head
      rw [if_pos rfl, List.length_singleton, List.take_append_of_le_length pending,
        List.take_add_one, here, List.map_append]
      congr 1
      show [s.slvPvalid i] = [_]
      congr 1
      funext k
      rw [slvPvalid, answers, shown, Bool.and_true]

/-- A request the queue has no room for leaves it almost full. -/
theorem Inv.room_next (served : P.fork.served (s.next i).fork 0 = true) :
    P.RespDepth ≤ (P.fifo.contents (s.next i).fifo).length + 1 := by
  obtain ⟨valid, undone, _⟩ := before.settled_of_served admitted served
  have unserved : P.fork.served (s.next i).fork 1 = false := by
    rw [← Bool.not_eq_true]
    exact fun second => (before.next admitted).apart ⟨served, second⟩
  rw [served_next, undone, if_neg Bool.false_ne_true, valid, Bool.true_and,
    Bool.or_eq_false_iff] at unserved
  have full : s.fifoReady = false := unserved.2
  have much : P.RespDepth ≤ (P.fifo.contents s.fifo).length := by
    rw [fifoReady, Bool.not_eq_false', P.fifo.lawful.full_eq_decide, decide_eq_true_iff] at full
    exact full
  rw [contents_next admitted, full, Bool.and_false, List.length_append]
  show _ ≤ _ + 0 + 1
  cases i.pValid with
  | false =>
    rw [if_neg Bool.false_ne_true]
    omega
  | true =>
    rw [if_pos rfl, List.length_tail]
    omega

end Step

/-- With room for two port numbers no response finds the queue empty. -/
theorem Inv.timely {past : List (Obs P Req Data)} {s : Mux P} (before : Inv past s)
    (room : P.fork.served s.fork 0 = true → P.RespDepth ≤ (P.fifo.contents s.fifo).length + 1)
    (two : 2 ≤ P.RespDepth) {i : MuxIn P Req Data} (admitted : memory past s i) :
    timely past s i := by
  refine ⟨admitted, ?_⟩
  intro answers
  have pending := admitted.2 answers
  rw [P.fifo.lawful.empty_eq_isEmpty, List.isEmpty_eq_false_iff]
  intro none
  have tickets := before.tickets
  rw [none, List.nil_append] at tickets
  cases served : P.fork.served s.fork 0 with
  | false =>
    rw [ahead, ahead, served, if_neg Bool.false_ne_true] at tickets
    have count := congrArg List.length (List.append_eq_nil_iff.mp tickets).1
    rw [unanswered, List.length_map, List.length_drop, List.length_nil] at count
    omega
  | true =>
    have almost := room served
    rw [none, List.length_nil] at almost
    omega

theorem inv_of_timely {past : List (Obs P Req Data)} {s : Mux P}
    (reached : (machine P Req Data).Reaches timely (init P) past s) : Inv past s := by
  apply reached.invariant Inv inv_init
  intro past s i _ before admitted
  exact before.next admitted

theorem inv_of_room (two : 2 ≤ P.RespDepth) {past : List (Obs P Req Data)} {s : Mux P}
    (reached : (machine P Req Data).Reaches memory (init P) past s) :
    Inv past s ∧ (P.fork.served s.fork 0 = true →
      P.RespDepth ≤ (P.fifo.contents s.fifo).length + 1) := by
  apply reached.invariant fun past s => Inv past s ∧ (P.fork.served s.fork 0 = true →
    P.RespDepth ≤ (P.fifo.contents s.fifo).length + 1)
  · refine ⟨inv_init, ?_⟩
    intro served
    have idle : P.fork.served (init P).fork 0 = false := P.fork.lawful.init 0
    rw [idle] at served
    exact Bool.noConfusion served
  · rintro past s i _ ⟨before, room⟩ admitted
    have soon := before.timely room two admitted
    exact ⟨before.next soon, before.room_next soon⟩

/-! ## Room for one -/

/-- One port asks and asks. -/
def ask [Inhabited Req] [Inhabited Data] (k : Fin P.NrPorts) (qReady pValid : Bool) :
    MuxIn P Req Data where
  qValid j := decide (j = k)
  q _ := default
  qReady := qReady
  pValid := pValid
  data := default

section Dry

variable [Inhabited Req] [Inhabited Data] {k : Fin P.NrPorts}

/-- The port asks again for what it waits for. -/
theorem ask_held {past : List (Obs P Req Data)} {s : Mux P} (r p r' p' : Bool) :
    ∀ j q, waitingOf (past ++ [(machine P Req Data).obs s (ask k r p)]) j = some q →
      (ask k r' p' : MuxIn P Req Data).qValid j = true ∧
        (ask k r' p' : MuxIn P Req Data).q j = q := by
  intro j q waits
  rw [waitingOf_concat] at waits
  by_cases asks : (ask k r p : MuxIn P Req Data).qValid j = true
  · refine ⟨asks, ?_⟩
    split at waits
    · exact Option.some.inj waits
    · exact absurd waits.symm (Option.some_ne_none _)
  · rw [Bool.not_eq_true] at asks
    rw [asks] at waits
    exact absurd waits.symm (Option.some_ne_none _)

theorem ask_valid {past : List (Obs P Req Data)} {s : Mux P} (before : Inv past s) {r p : Bool}
    (admitted : timely past s (ask k r p)) : s.rrValid (ask k r p : MuxIn P Req Data) = true := by
  rw [rrValid_eq (before.keeps admitted), anyReq_iff]
  exact ⟨k, decide_eq_true rfl⟩

/-- The second request is accepted while the number of the first fills the queue; the
first response empties it, and the second may follow at once. -/
theorem runs_dry (one : P.RespDepth = 1) (k : Fin P.NrPorts) :
    ∃ past s, (machine P Req Data).Reaches memory (init P) past s ∧
      ∃ i, memory past s i ∧ i.pValid = true ∧ P.fifo.empty s.fifo = true := by
  let give : MuxIn P Req Data := ask k true false
  let answer : MuxIn P Req Data := ask k false true
  let s1 := (init P).next give
  let s2 := s1.next give
  let past1 := [] ++ [(machine P Req Data).obs (init P) give]
  let past2 := past1 ++ [(machine P Req Data).obs s1 give]
  have ready : ∀ s : Mux P, s.fifoReady = !decide (1 ≤ (P.fifo.contents s.fifo).length) := by
    intro s
    rw [fifoReady, P.fifo.lawful.full_eq_decide]
    exact congrArg (fun depth => !decide (depth ≤ _)) one
  -- the first request: memory and queue take it
  have first : timely ([] : List (Obs P Req Data)) (init P) give :=
    ⟨⟨fun _ _ waits => absurd waits.symm (Option.some_ne_none _), fun h => Bool.noConfusion h⟩,
      fun h => Bool.noConfusion h⟩
  have valid0 := ask_valid inv_init first
  have idle0 : ∀ taker, P.fork.served (init P).fork taker = false := P.fork.lawful.init
  have stored0 : P.fifo.contents (init P).fifo = [] := P.fifo.lawful.init
  have room0 : (init P).fifoReady = true := by
    rw [ready, stored0]
    rfl
  have stored1 : P.fifo.contents s1.fifo = [(init P).fifoInSelect give] := by
    rw [contents_next first, stored0, valid0, idle0, room0]
    rfl
  have idle1 : ∀ taker, P.fork.served s1.fork taker = false := by
    intro taker
    have done : (init P).rrReady give = true := by
      rw [rrReady_eq, valid0, room0]
      simp [give, ask]
    rw [served_next, done, if_pos rfl]
  have count1 : (forwarded past1).length = 1 := by
    rw [forwarded_concat, mstQvalid_eq, valid0, idle0]
    rfl
  -- the second: the memory takes it, the queue is full
  have second : timely past1 s1 give :=
    ⟨⟨ask_held _ _ _ _, fun h => Bool.noConfusion h⟩, fun h => Bool.noConfusion h⟩
  have inv1 := inv_init.next first
  have valid1 := ask_valid inv1 second
  have room1 : s1.fifoReady = false := by
    rw [ready, stored1]
    rfl
  have stored2 : P.fifo.contents s2.fifo = [(init P).fifoInSelect give] := by
    rw [contents_next second, stored1, room1, Bool.and_false]
    rfl
  have count2 : (forwarded past2).length = 2 := by
    rw [forwarded_concat, List.length_append, count1, mstQvalid_eq, valid1, idle1]
    rfl
  -- the first response
  have third : timely past2 s2 answer := by
    refine ⟨⟨ask_held _ _ _ _, ?_⟩, ?_⟩
    · intro _
      rw [count2]
      exact Nat.two_pos
    · intro _
      rw [P.fifo.lawful.empty_eq_isEmpty, stored2]
      rfl
  have room2 : s2.fifoReady = false := by
    rw [ready, stored2]
    rfl
  have stored3 : P.fifo.contents (s2.next answer).fifo = [] := by
    rw [contents_next third, stored2, room2, Bool.and_false]
    rfl
  refine ⟨past2 ++ [(machine P Req Data).obs s2 answer], s2.next answer,
    ((Machine.Reaches.start.cycle first.1).cycle second.1).cycle third.1, answer, ⟨?_, ?_⟩, rfl, ?_⟩
  · exact ask_held _ _ _ _
  · intro _
    have answered : (delivered (past2 ++ [(machine P Req Data).obs s2 answer])).length = 1 := rfl
    rw [answered, forwarded_concat, List.length_append, count2]
    omega
  · rw [P.fifo.lawful.empty_eq_isEmpty, stored3]
    rfl

end Dry

/-- **Routing.**  For any number of ports, any requests held until acknowledged, any
stalls and any memory that answers in order, at least one cycle later, every run
routes every response to its requester if and only if the queue has room for two
port numbers.  With room for one it still does as long as no response comes while the
queue is empty. -/
theorem responses_routed (Req Data : Type) [Inhabited Req] [Inhabited Data] (P : MuxParts)
    (ports : 2 ≤ P.NrPorts) (depth : 1 ≤ P.RespDepth) :
    ((∀ past s, (machine P Req Data).Reaches memory (init P) past s → Routed past s) ↔
        2 ≤ P.RespDepth) ∧
      ∀ past s, (machine P Req Data).Reaches timely (init P) past s → Matched past s := by
  refine ⟨⟨?_, ?_⟩, ?_⟩
  · intro routed
    by_contra shallow
    have one : P.RespDepth = 1 := by omega
    obtain ⟨past, s, reached, i, admitted, answers, dry⟩ :=
      @runs_dry P Req Data _ _ one ⟨0, by omega⟩
    have stocked := (routed past s reached).stocked i admitted answers
    rw [dry] at stocked
    exact Bool.noConfusion stocked
  · intro two past s reached
    obtain ⟨inv, room⟩ := inv_of_room two reached
    exact ⟨inv.toMatched, fun i admitted => (inv.timely room two admitted).2⟩
  · intro past s reached
    exact (inv_of_timely reached).toMatched

/-! ## Two ports -/

/-- Two ports and room for `depth` port numbers. -/
abbrev pair (depth : Nat) : MuxParts := ⟨2, depth, .lowest 1, .ofFlags 2, .ofList depth 0⟩

/-- Both ports ask; the memory accepts both requests and answers them. -/
def twoRequests : List (MuxIn (pair 2) Nat Nat) :=
  [{ qValid := fun _ => true, q := fun k => k.val, qReady := true, pValid := false, data := 0 },
    { qValid := fun k => k == 1, q := fun k => k.val, qReady := true, pValid := true, data := 7 },
    { qValid := fun _ => false, q := fun k => k.val, qReady := true, pValid := true, data := 8 }]

theorem twoRequests_reached : (machine (pair 2) Nat Nat).Reaches memory (init _)
    ((machine (pair 2) Nat Nat).trace (init _) twoRequests)
    ((machine (pair 2) Nat Nat).run (init _) twoRequests) := by
  refine (machine (pair 2) Nat Nat).reaches_run (init _) twoRequests ⟨⟨?_, ?_⟩, ⟨?_, ?_⟩, ⟨?_, ?_⟩, trivial⟩
  · exact fun _ _ waits => absurd waits.symm (Option.some_ne_none _)
  · exact fun h => Bool.noConfusion h
  · decide
  · decide
  · decide
  · decide

theorem responses_routed_pair :
    Routed ((machine (pair 2) Nat Nat).trace (init _) twoRequests)
      ((machine (pair 2) Nat Nat).run (init _) twoRequests) :=
  (responses_routed Nat Nat (pair 2) (by decide) (by decide)).1.mpr (Nat.le_refl 2) _ _
    twoRequests_reached

/-- Two requests of one port, the second accepted before the first is answered: the
second response finds the queue of one number empty. -/
theorem second_response_misrouted :
    ¬∀ past s, (machine (pair 1) Nat Nat).Reaches memory (init _) past s → Routed past s := by
  intro routed
  obtain ⟨past, s, reached, i, admitted, answers, dry⟩ :=
    @runs_dry (pair 1) Nat Nat _ _ rfl 0
  have stocked := (routed past s reached).stocked i admitted answers
  rw [dry] at stocked
  exact Bool.noConfusion stocked

end Mux

end SnitchCluster.Tcdm
