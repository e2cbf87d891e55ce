/-
# Reqrsp.Demux -- one requester in front of several ports

`reqrsp_demux`: a request goes to the selected port while the queue has room, and a
one-hot mask of the port that takes it enters the queue.  The mask at the head opens the
response channel of one port; a response leaves with its mask.

The output of an empty queue is not masked, so it may leave a channel open that nobody
asked.  `responses_in_request_order` holds all the same: with an empty queue no port has
a response to give.  `responses_arrive` is the other half, that every response comes.
-/
import SnitchCluster.Theory.Clocked
import SnitchCluster.Theory.Cells
import SnitchCluster.Theory.Supply

namespace SnitchCluster.Reqrsp

open Theory

/-- The sizes, the queue of one-hot masks, and the response shown when no port is open. -/
structure DemuxParts (Rsp : Type) where
  NrPorts : Nat
  RespDepth : Nat
  fifo : LawfulFifo (Fin NrPorts → Bool) RespDepth
  zero : Rsp
  depth_pos : 0 < RespDepth

/-- The registers are those of the queue. -/
structure Demux {Rsp : Type} (P : DemuxParts Rsp) where
  fifo : P.fifo.State

def Demux.init {Rsp : Type} (P : DemuxParts Rsp) : Demux P := ⟨P.fifo.init⟩

/-- The inputs of a cycle: the slave side with its select value, and the ports. -/
structure DemuxIn {Rsp : Type} (P : DemuxParts Rsp) (Req : Type) where
  select : Nat
  qValid : Bool
  q : Req
  pReady : Bool
  mstQready : Fin P.NrPorts → Bool
  mstPvalid : Fin P.NrPorts → Bool
  mstP : Fin P.NrPorts → Rsp

namespace Demux

variable {Req Rsp : Type} {P : DemuxParts Rsp} (s : Demux P) (i : DemuxIn P Req)

/-! ## Wires -/

def fifoFull : Bool := P.fifo.full s.fifo

/-- `fwd`: the mask at the head, or whatever an empty queue shows. -/
def fwd : Fin P.NrPorts → Bool := P.fifo.data s.fifo

def reqValid : Bool := !s.fifoFull && i.qValid

/-- A select value selects the port of its number, if there is one. -/
def mask {Rsp : Type} (P : DemuxParts Rsp) (select : Nat) (k : Fin P.NrPorts) : Bool := decide (k.val = select)

/-- `req_ready`. -/
def reqReady : Bool :=
  if bound : i.select < P.NrPorts then i.mstQready ⟨i.select, bound⟩ else false

def slvQready : Bool := !s.fifoFull && reqReady i

/-- `mst_req_o[k].q_valid`. -/
def mstQvalid (k : Fin P.NrPorts) : Bool := mask P i.select k && s.reqValid i

/-- `mst_req_o[k].p_ready`. -/
def mstPready (k : Fin P.NrPorts) : Bool := if s.fwd k then i.pReady else false

def fifoData (k : Fin P.NrPorts) : Bool := i.mstQready k && s.mstQvalid i k

/-- The response routing: the last port with its bit set in `fwd`. -/
def slvRsp : Rsp × Bool :=
  (List.finRange P.NrPorts).foldl
    (fun out k => if s.fwd k then (i.mstP k, i.mstPvalid k) else out) (P.zero, false)

def slvPvalid : Bool := (s.slvRsp i).2

def pushIdFifo : Bool := s.reqValid i && s.slvQready i

def popIdFifo : Bool := s.slvPvalid i && i.pReady

def next : Demux P where
  fifo := P.fifo.next s.fifo false (s.pushIdFifo i) (s.fifoData i) (s.popIdFifo i)

/-! ## Runs -/

/-- What a cycle shows: the request accepted with its select value, the requests the
ports take, the responses they hand over, and the response the slave takes. -/
structure Obs (P : DemuxParts Rsp) (Req : Type) where
  accepted : Option (Nat × Req)
  forwarded : Fin P.NrPorts → Option Req
  answered : Fin P.NrPorts → Option Rsp
  delivered : Option Rsp

def machine (P : DemuxParts Rsp) (Req : Type) :
    Machine (Demux P) (DemuxIn P Req) (Obs P Req) where
  obs s i :=
    { accepted := if i.qValid && s.slvQready i then some (i.select, i.q) else none
      forwarded := fun k => if s.mstQvalid i k && i.mstQready k then some i.q else none
      answered := fun k => if i.mstPvalid k && s.mstPready i k then some (i.mstP k) else none
      delivered := if s.popIdFifo i then some (s.slvRsp i).1 else none }
  next := next

section Past

variable (past : List (Obs P Req))

/-- The requests accepted, each with its select value. -/
def accepted : List (Nat × Req) := past.filterMap Obs.accepted

/-- The requests that select a port. -/
def acceptedFor (k : Fin P.NrPorts) : List Req :=
  (accepted past).filterMap fun a => if a.1 = k.val then some a.2 else none

/-- The requests a port took. -/
def forwardedTo (k : Fin P.NrPorts) : List Req := past.filterMap fun o => o.forwarded k

/-- The responses a port handed over. -/
def answeredBy (k : Fin P.NrPorts) : List Rsp := past.filterMap fun o => o.answered k

/-- The responses the slave took. -/
def delivered : List Rsp := past.filterMap Obs.delivered

/-- The responses the slave took to the requests that select a port. -/
def responsesFrom (k : Fin P.NrPorts) : List Rsp :=
  ((accepted past).zip (delivered past)).filterMap fun f => if f.1.1 = k.val then some f.2 else none

end Past

/-- The select value of a request is that of a port, and a port answers its own requests
only, each in a later cycle than it takes it. -/
def ownRequests : Machine.Env (Demux P) (DemuxIn P Req) (Obs P Req) := fun past _ i =>
  (i.qValid = true → i.select < P.NrPorts) ∧
    ∀ k, i.mstPvalid k = true → (answeredBy past k).length < (forwardedTo past k).length

instance (past : List (Obs P Req)) (s : Demux P) (i : DemuxIn P Req) :
    Decidable (ownRequests past s i) :=
  inferInstanceAs (Decidable ((_ → _) ∧ ∀ _, _ → _))

/-- The bookkeeping of a run: a port takes the requests that select it and no other, the
slave takes one response a request, in the order of the requests, and these are the ones
the ports handed over. -/
structure Ordered (past : List (Obs P Req)) : Prop where
  once : ∀ k, forwardedTo past k = acceptedFor past k
  inBounds : ∀ a ∈ accepted past, a.1 < P.NrPorts
  pending : (delivered past).length ≤ (accepted past).length
  served : ∀ k, answeredBy past k = responsesFrom past k

/-! ## One cycle -/

/-- A one-hot mask routes its port. -/
theorem foldl_mask {α : Type} {n : Nat} (f : Fin n → α) (k : Fin n) (ports : List (Fin n))
    (out : α) : ports.foldl (fun out j => if decide (j.val = k.val) then f j else out) out =
      if ports.any (fun j => decide (j = k)) then f k else out := by
  induction ports generalizing out with
  | nil => rfl
  | cons j ports ih =>
    rw [List.foldl_cons, ih]
    by_cases here : j = k
    · subst here
      simp
    · have apart : ¬j.val = k.val := fun same => here (Fin.ext same)
      simp [apart, here]

section Cycle

variable {s i} {k : Fin P.NrPorts}

theorem slvRsp_of_fwd (head : s.fwd = mask P k.val) :
    s.slvRsp i = (i.mstP k, i.mstPvalid k) := by
  have routed := foldl_mask (fun j => (i.mstP j, i.mstPvalid j)) k (List.finRange P.NrPorts)
    (P.zero, false)
  rw [if_pos (List.any_eq_true.mpr ⟨k, List.mem_finRange k, by simp⟩)] at routed
  rw [slvRsp, head]
  exact routed

/-- Nothing is delivered while no port has a response. -/
theorem slvPvalid_of_silent (silent : ∀ k, i.mstPvalid k = false) : s.slvPvalid i = false := by
  rw [slvPvalid, slvRsp]
  generalize List.finRange P.NrPorts = ports
  have closed : ∀ out : Rsp × Bool, out.2 = false → (ports.foldl
      (fun out k => if s.fwd k then (i.mstP k, i.mstPvalid k) else out) out).2 = false := by
    induction ports with
    | nil => exact fun out off => off
    | cons k ports ih =>
      intro out off
      rw [List.foldl_cons]
      apply ih
      split
      · exact silent k
      · exact off
  exact closed _ rfl

theorem pushIdFifo_eq : s.pushIdFifo i = (i.qValid && s.slvQready i) := by
  rw [pushIdFifo, reqValid, slvQready]
  cases s.fifoFull <;> simp

/-- A port takes a request exactly when it is selected and the request is accepted. -/
theorem takes_eq (k : Fin P.NrPorts) : (s.mstQvalid i k && i.mstQready k) =
    (mask P i.select k && s.pushIdFifo i) := by
  rw [mstQvalid, pushIdFifo, slvQready, reqReady, reqValid, mask]
  by_cases mine : k.val = i.select
  · have bound : i.select < P.NrPorts := mine ▸ k.isLt
    have port : (⟨i.select, bound⟩ : Fin P.NrPorts) = k := Fin.ext mine.symm
    rw [dif_pos bound, port, decide_eq_true mine]
    cases s.fifoFull <;> simp
  · rw [decide_eq_false mine]
    rfl

/-- The mask pushed is that of the select value. -/
theorem fifoData_eq (push : s.pushIdFifo i = true) : s.fifoData i = mask P i.select := by
  funext k
  rw [fifoData, Bool.and_comm, takes_eq, push, Bool.and_true]

end Cycle

/-! ## The invariant -/

/-- The queue holds the masks of the unanswered requests. -/
structure Inv (past : List (Obs P Req)) (s : Demux P) : Prop extends Ordered past where
  tickets : P.fifo.contents s.fifo =
    (Supply.unanswered (accepted past) (delivered past)).map fun a => mask P a.1

section Concat

variable (past : List (Obs P Req)) (s : Demux P) (i : DemuxIn P Req)

theorem accepted_concat : accepted (past ++ [(machine P Req).obs s i]) =
    accepted past ++ if s.pushIdFifo i then [(i.select, i.q)] else [] := by
  rw [accepted, filterMap_concat, pushIdFifo_eq]
  show _ ++ Option.toList (if i.qValid && s.slvQready i then _ else none) = _
  cases i.qValid && s.slvQready i <;> rfl

theorem forwardedTo_concat (k : Fin P.NrPorts) :
    forwardedTo (past ++ [(machine P Req).obs s i]) k =
      forwardedTo past k ++ if mask P i.select k && s.pushIdFifo i then [i.q] else [] := by
  rw [forwardedTo, filterMap_concat, ← takes_eq]
  show _ ++ Option.toList (if s.mstQvalid i k && i.mstQready k then _ else none) = _
  cases s.mstQvalid i k && i.mstQready k <;> rfl

theorem answeredBy_concat (k : Fin P.NrPorts) :
    answeredBy (past ++ [(machine P Req).obs s i]) k =
      answeredBy past k ++ if i.mstPvalid k && s.mstPready i k then [i.mstP k] else [] := by
  exact filterMap_shown (by rfl) _

theorem delivered_concat : delivered (past ++ [(machine P Req).obs s i]) =
    delivered past ++ if s.popIdFifo i then [(s.slvRsp i).1] else [] := by
  exact filterMap_shown (by rfl) _

end Concat

theorem inv_init : Inv ([] : List (Obs P Req)) (init P) where
  once _ := rfl
  inBounds _ member := absurd member List.not_mem_nil
  pending := Nat.le_refl _
  served _ := rfl
  tickets := P.fifo.lawful.init

section Step

variable {past : List (Obs P Req)} {s : Demux P} {i : DemuxIn P Req}

/-- What a port owes are the unanswered requests that select it. -/
theorem Inv.owed (before : Inv past s) (k : Fin P.NrPorts) :
    (forwardedTo past k).length = (answeredBy past k).length +
      (Supply.unanswered (accepted past) (delivered past)).countP (fun a => a.1 = k.val) := by
  have split := Supply.zip_unanswered before.pending
  have answers : (responsesFrom past k).length =
      (((accepted past).zip (delivered past)).map Prod.fst).countP (fun a => a.1 = k.val) := by
    rw [responsesFrom, List.length_filterMap_eq_countP, List.countP_map]
    congr 1
    funext f
    by_cases mine : f.1.1 = k.val <;> simp [mine]
  have requests : (acceptedFor past k).length = (accepted past).countP (fun a => a.1 = k.val) := by
    rw [acceptedFor, List.length_filterMap_eq_countP]
    congr 1
    funext a
    by_cases mine : a.1 = k.val <;> simp [mine]
  rw [before.once, before.served, requests, answers, ← List.countP_append, split]

/-- The open channel: with requests unanswered, that of the port the oldest one selects. -/
theorem Inv.head (before : Inv past s) {a : Nat × Req} {later : List (Nat × Req)}
    (oldest : Supply.unanswered (accepted past) (delivered past) = a :: later) :
    ∃ k : Fin P.NrPorts, a.1 = k.val ∧ s.fwd = mask P k.val := by
  have member : a ∈ accepted past := by
    apply List.mem_of_mem_drop (i := (delivered past).length)
    rw [← Supply.unanswered, oldest]
    exact List.mem_cons_self
  refine ⟨⟨a.1, before.inBounds a member⟩, rfl, ?_⟩
  apply P.fifo.lawful.data_head s.fifo _ (later.map fun a => mask P a.1)
  rw [before.tickets, oldest, List.map_cons]

/-- What a cycle delivers: nothing, and no port hands a response over, or the response of
the port that the oldest request selects, which alone hands one over. -/
inductive Outcome (past : List (Obs P Req)) (s : Demux P) (i : DemuxIn P Req) : Prop
  | quiet (pop : s.popIdFifo i = false) (closed : ∀ k, (i.mstPvalid k && s.mstPready i k) = false)
  | serves (a : Nat × Req) (later : List (Nat × Req)) (k : Fin P.NrPorts)
      (oldest : Supply.unanswered (accepted past) (delivered past) = a :: later)
      (port : a.1 = k.val) (pop : s.popIdFifo i = true) (rsp : (s.slvRsp i).1 = i.mstP k)
      (hands : ∀ j, (i.mstPvalid j && s.mstPready i j) = decide (j = k))

section

variable (before : Inv past s) (admitted : ownRequests past s i)

include before admitted

theorem Inv.outcome : Outcome past s i := by
  cases oldest : Supply.unanswered (accepted past) (delivered past) with
  | nil =>
    -- an empty queue may leave a channel open, but nobody answers
    have silent : ∀ k, i.mstPvalid k = false := by
      intro k
      rw [← Bool.not_eq_true]
      intro answers
      have some := admitted.2 k answers
      rw [before.owed, oldest] at some
      exact Nat.lt_irrefl _ some
    refine .quiet ?_ fun k => ?_
    · rw [popIdFifo, slvPvalid_of_silent silent, Bool.false_and]
    · rw [silent, Bool.false_and]
  | cons a later =>
    obtain ⟨k, port, head⟩ := before.head oldest
    have routed := slvRsp_of_fwd (i := i) head
    have pop : s.popIdFifo i = (i.mstPvalid k && i.pReady) := by rw [popIdFifo, slvPvalid, routed]
    have hands : ∀ j, (i.mstPvalid j && s.mstPready i j) =
        (decide (j = k) && (i.mstPvalid k && i.pReady)) := by
      intro j
      rw [mstPready, head, mask]
      by_cases mine : j = k
      · subst mine
        simp
      · have apart : ¬j.val = k.val := fun same => mine (Fin.ext same)
        simp [mine, apart]
    cases served : i.mstPvalid k && i.pReady with
    | false => exact .quiet (pop.trans served) fun j => by rw [hands, served, Bool.and_false]
    | true =>
      exact .serves a later k oldest port (pop.trans served) (by rw [routed]) fun j => by
        rw [hands, served, Bool.and_true]

theorem Inv.contents_next : P.fifo.contents (s.next i).fifo =
      (if s.popIdFifo i then (P.fifo.contents s.fifo).tail else P.fifo.contents s.fifo) ++
        if s.pushIdFifo i then [mask P i.select] else [] := by
  have room : s.pushIdFifo i = true → P.fifo.full s.fifo = false := by
    intro push
    rw [pushIdFifo, reqValid, Bool.and_eq_true, Bool.and_eq_true, Bool.not_eq_true'] at push
    exact push.1.1
  have some : s.popIdFifo i = true → P.fifo.empty s.fifo = false := by
    intro pop
    rw [P.fifo.lawful.empty_eq_isEmpty, before.tickets]
    rcases before.outcome admitted with ⟨quiet, -⟩ | ⟨a, later, k, oldest, -, -, -, -⟩
    · rw [pop] at quiet
      exact absurd quiet (by simp)
    · rw [oldest]
      rfl
  rw [next, P.fifo.lawful.next _ _ _ _ room some]
  cases push : s.pushIdFifo i with
  | false => rfl
  | true => rw [fifoData_eq push]

/-- **The invariant survives a cycle.** -/
theorem Inv.next : Inv (past ++ [(machine P Req).obs s i]) (s.next i) := by
  have asked := Supply.unanswered_ask before.pending
    (if s.pushIdFifo i then [(i.select, i.q)] else [])
  have masks : (if s.pushIdFifo i then [(i.select, i.q)] else []).map (fun a => mask P a.1) =
      if s.pushIdFifo i then [mask P i.select] else [] := by
    cases s.pushIdFifo i <;> rfl
  have count := before.pending
  have stored := before.contents_next admitted
  constructor
  · constructor
    · intro k
      rw [forwardedTo_concat, acceptedFor, accepted_concat, List.filterMap_append, before.once,
        acceptedFor]
      congr 1
      cases s.pushIdFifo i with
      | false => simp
      | true =>
        by_cases mine : i.select = k.val
        · simp [mask, mine]
        · simp [mask, mine, Ne.symm mine]
    · intro a member
      rw [accepted_concat, List.mem_append] at member
      rcases member with old | new
      · exact before.inBounds a old
      · cases push : s.pushIdFifo i with
        | false => simp [push] at new
        | true =>
          rw [pushIdFifo_eq, Bool.and_eq_true] at push
          simp [pushIdFifo_eq, push] at new
          rw [new]
          exact admitted.1 push.1
    · rw [delivered_concat, accepted_concat, List.length_append, List.length_append]
      rcases before.outcome admitted with ⟨quiet, -⟩ | ⟨a, later, k, oldest, -, pop, -, -⟩
      · rw [quiet, if_neg Bool.false_ne_true, List.length_nil]
        omega
      · have size := Supply.length_unanswered count
        rw [oldest, List.length_cons] at size
        rw [pop, if_pos rfl, List.length_singleton]
        omega
    · intro k
      rw [answeredBy_concat, responsesFrom, accepted_concat, delivered_concat, before.served,
        responsesFrom]
      rcases before.outcome admitted with ⟨quiet, closed⟩ | ⟨a, later, j, oldest, port, pop, rsp, hands⟩
      · rw [quiet, closed, if_neg Bool.false_ne_true, if_neg Bool.false_ne_true, List.append_nil,
          List.append_nil, Supply.zip_ask count]
      · rw [oldest, List.cons_append] at asked
        rw [pop, if_pos rfl, Supply.zip_answer asked, Supply.zip_ask count,
          List.filterMap_append, hands, rsp]
        congr 1
        by_cases mine : k = j
        · subst mine
          simp [port]
        · have apart : ¬a.1 = k.val := fun same => mine (Fin.ext (same.symm.trans port))
          simp [mine, apart]
  · rw [stored, accepted_concat, delivered_concat, before.tickets]
    rcases before.outcome admitted with ⟨quiet, -⟩ | ⟨a, later, k, oldest, -, pop, -, -⟩
    · rw [quiet, if_neg Bool.false_ne_true, if_neg Bool.false_ne_true, List.append_nil, asked,
        List.map_append, masks]
    · rw [oldest, List.cons_append] at asked
      rw [pop, if_pos rfl, if_pos rfl, Supply.unanswered_answer asked, List.map_append, masks,
        oldest]
      rfl

end

end Step

/-! ## Endless runs -/

section Endless

variable (u : Nat → DemuxIn P Req)

/-- The observations of the first cycles and the state after them. -/
abbrev past (n : Nat) : List (Obs P Req) := (machine P Req).history (init P) u n

abbrev state (n : Nat) : Demux P := (machine P Req).stateAt (init P) u n

/-- A port keeps a response up until it is taken, a port that owes one comes up with it,
and the slave takes responses again and again. -/
structure Fair : Prop where
  held : ∀ n k, (u n).mstPvalid k = true → (state u n).mstPready (u n) k = false →
    (u (n + 1)).mstPvalid k = true
  answers : ∀ n k, (answeredBy (past u n) k).length < (forwardedTo (past u n) k).length →
    ∃ m, n ≤ m ∧ (u m).mstPvalid k = true
  takes : ∀ n, ∃ m, n ≤ m ∧ (u m).pReady = true

variable {u}

theorem inv_at (n : Nat) (admitted : ∀ m < n, ownRequests (past u m) (state u m) (u m)) :
    Inv (past u n) (state u n) := by
  induction n with
  | zero => exact inv_init
  | succ n ih => exact (ih fun m below => admitted m (by omega)).next (admitted n (by omega))

theorem accepted_grows (n d : Nat) : accepted (past u n) <+: accepted (past u (n + d)) := by
  induction d with
  | zero => exact List.prefix_refl _
  | succ d ih =>
    refine ih.trans ?_
    show _ <+: accepted (past u (n + d) ++ [_])
    rw [accepted_concat]
    exact List.prefix_append _ _

theorem delivered_grows (n d : Nat) : delivered (past u n) <+: delivered (past u (n + d)) := by
  induction d with
  | zero => exact List.prefix_refl _
  | succ d ih =>
    refine ih.trans ?_
    show _ <+: delivered (past u (n + d) ++ [_])
    rw [delivered_concat]
    exact List.prefix_append _ _

/-- **Progress.**  While a request is unanswered, another response is on its way. -/
theorem another (fair : Fair u) (admitted : ∀ n, ownRequests (past u n) (state u n) (u n))
    {n : Nat} (short : (delivered (past u n)).length < (accepted (past u n)).length) :
    ∃ m, n ≤ m ∧ (delivered (past u n)).length < (delivered (past u m)).length := by
  by_contra never
  push Not at never
  -- no response is taken from `n` on
  have still : ∀ d, delivered (past u (n + d)) = delivered (past u n) := by
    intro d
    exact ((delivered_grows n d).eq_of_length_le (never _ (Nat.le_add_right n d))).symm
  have quiet : ∀ d, (state u (n + d)).popIdFifo (u (n + d)) = false := by
    intro d
    rw [← Bool.not_eq_true]
    intro pop
    have more : delivered (past u (n + d + 1)) = delivered (past u (n + d)) ++ _ :=
      delivered_concat _ _ _
    have same := still (d + 1)
    rw [← Nat.add_assoc, more, pop, if_pos rfl, still] at same
    exact absurd (congrArg List.length same) (by simp)
  -- so the oldest request stays, and its channel is open
  have some : Supply.unanswered (accepted (past u n)) (delivered (past u n)) ≠ [] := by
    rw [Supply.unanswered, ne_eq, List.drop_eq_nil_iff]
    omega
  obtain ⟨a, later, oldest⟩ := List.exists_cons_of_ne_nil some
  have stays : ∀ d, ∃ more, Supply.unanswered (accepted (past u (n + d)))
      (delivered (past u (n + d))) = a :: more := by
    intro d
    obtain ⟨more, grown⟩ := accepted_grows (u := u) n d
    refine ⟨later ++ more, ?_⟩
    rw [still, ← grown, Supply.unanswered_ask (Nat.le_of_lt short), oldest, List.cons_append]
  have before : ∀ d, Inv (past u (n + d)) (state u (n + d)) := fun d =>
    inv_at _ fun m _ => admitted m
  have here : Inv (past u n) (state u n) := before 0
  obtain ⟨k, port, -⟩ := here.head oldest
  have opens : ∀ d, (state u (n + d)).mstPready (u (n + d)) k = (u (n + d)).pReady ∧
      ((u (n + d)).mstPvalid k = true → (u (n + d)).pReady = false) := by
    intro d
    obtain ⟨more, first⟩ := stays d
    obtain ⟨j, same, head⟩ := (before d).head first
    obtain rfl : j = k := Fin.ext (same.symm.trans port)
    have routed := slvRsp_of_fwd (i := u (n + d)) head
    have pop := quiet d
    rw [popIdFifo, slvPvalid, routed] at pop
    refine ⟨by rw [mstPready, head, mask, decide_eq_true rfl]; rfl, fun answers => ?_⟩
    simpa [answers] using pop
  -- its port comes up with the response and keeps it up until the slave takes it
  have owes : (answeredBy (past u n) k).length < (forwardedTo (past u n) k).length := by
    rw [here.owed k, oldest, List.countP_cons_of_pos (by simpa using port)]
    omega
  obtain ⟨m, later, answers⟩ := fair.answers n k owes
  obtain ⟨d, rfl⟩ := Nat.exists_eq_add_of_le later
  have up : ∀ e, (u (n + (d + e))).mstPvalid k = true := by
    intro e
    induction e with
    | zero => exact answers
    | succ e ih =>
      obtain ⟨open', refused⟩ := opens (d + e)
      exact fair.held _ k ih (open'.trans (refused ih))
  obtain ⟨r, after, ready⟩ := fair.takes (n + d)
  obtain ⟨e, rfl⟩ := Nat.exists_eq_add_of_le after
  rw [Nat.add_assoc, (opens (d + e)).2 (up e)] at ready
  exact absurd ready (by simp)

/-- Every accepted request is answered. -/
theorem responses_arrive (fair : Fair u)
    (admitted : ∀ n, ownRequests (past u n) (state u n) (u n)) (n : Nat) :
    ∃ m, n ≤ m ∧ (accepted (past u n)).length ≤ (delivered (past u m)).length := by
  have upto : ∀ d ≤ (accepted (past u n)).length, ∃ m, n ≤ m ∧ d ≤ (delivered (past u m)).length := by
    intro d
    induction d with
    | zero => exact fun _ => ⟨n, Nat.le_refl n, Nat.zero_le _⟩
    | succ d ih =>
      intro bound
      obtain ⟨m, later, reached⟩ := ih (by omega)
      by_cases more : d + 1 ≤ (delivered (past u m)).length
      · exact ⟨m, later, more⟩
      · obtain ⟨e, rfl⟩ := Nat.exists_eq_add_of_le later
        have grown := (accepted_grows (u := u) n e).length_le
        obtain ⟨r, after, next⟩ := another fair admitted (n := n + e) (by omega)
        exact ⟨r, by omega, by omega⟩
  exact upto _ (Nat.le_refl _)

end Endless

/-- **Responses in request order.**  For any number of ports, any depth, any requests and
any relative speed of the ports, which may finish in any order: a request goes once, to
the port it selects; the slave takes the responses in the order of the requests, each as
the port that served it gave it; and it takes one for every request, provided the ports
come up with theirs and the slave keeps taking. -/
theorem responses_in_request_order (u : Nat → DemuxIn P Req) :
    (∀ n, (∀ m < n, ownRequests (past u m) (state u m) (u m)) → Ordered (past u n)) ∧
      ((∀ n, ownRequests (past u n) (state u n) (u n)) → Fair u → ∀ n, ∃ m, n ≤ m ∧
        (accepted (past u n)).length ≤ (delivered (past u m)).length) :=
  ⟨fun n admitted => (inv_at n admitted).toOrdered, fun admitted fair n =>
    responses_arrive fair admitted n⟩

/-! ## Two ports, the second one faster -/

/-- Two ports and room for two responses. -/
abbrev forked : DemuxParts Nat where
  NrPorts := 2
  RespDepth := 2
  fifo := .ofList 2 fun _ => false
  zero := 0
  depth_pos := by decide

/-- A request to each port; the second port answers first and waits its turn. -/
def outOfOrder : Nat → DemuxIn forked Nat
  | 0 => { select := 0, qValid := true, q := 5, pReady := true, mstQready := fun _ => true,
           mstPvalid := fun _ => false, mstP := fun _ => 0 }
  | 1 => { select := 1, qValid := true, q := 6, pReady := true, mstQready := fun _ => true,
           mstPvalid := fun _ => false, mstP := fun _ => 0 }
  | 2 => { select := 0, qValid := false, q := 0, pReady := true, mstQready := fun _ => true,
           mstPvalid := fun k => k == 1, mstP := fun _ => 60 }
  | 3 => { select := 0, qValid := false, q := 0, pReady := true, mstQready := fun _ => true,
           mstPvalid := fun _ => true, mstP := fun k => if k = 0 then 50 else 60 }
  | 4 => { select := 0, qValid := false, q := 0, pReady := true, mstQready := fun _ => true,
           mstPvalid := fun k => k == 1, mstP := fun _ => 60 }
  | _ => { select := 0, qValid := false, q := 0, pReady := true, mstQready := fun _ => true,
           mstPvalid := fun _ => false, mstP := fun _ => 0 }

/-- From the sixth cycle on nothing moves. -/
theorem outOfOrder_rests (n : Nat) (k : Fin 2) :
    forwardedTo (past outOfOrder (n + 5)) k = forwardedTo (past outOfOrder 5) k ∧
      answeredBy (past outOfOrder (n + 5)) k = answeredBy (past outOfOrder 5) k := by
  induction n with
  | zero => exact ⟨rfl, rfl⟩
  | succ n ih =>
    have idle : (state outOfOrder (n + 5)).pushIdFifo (outOfOrder (n + 5)) = false := by
      rw [pushIdFifo_eq]
      rfl
    refine ⟨?_, ?_⟩
    · show forwardedTo (past outOfOrder (n + 5) ++ [_]) k = _
      rw [forwardedTo_concat, idle, Bool.and_false, ih.1]
      exact List.append_nil _
    · show answeredBy (past outOfOrder (n + 5) ++ [_]) k = _
      rw [answeredBy_concat, ih.2]
      exact List.append_nil _

theorem outOfOrder_admitted : ∀ n,
    ownRequests (past outOfOrder n) (state outOfOrder n) (outOfOrder n)
  | 0 | 1 | 2 | 3 | 4 => by decide
  | n + 5 => ⟨by simp [outOfOrder], by simp [outOfOrder]⟩

theorem outOfOrder_fair : Fair outOfOrder where
  held
    | 0 | 1 | 2 | 3 | 4 => by decide
    | n + 5 => by simp [outOfOrder]
  answers
    | 0 | 1 | 2 | 3 => fun k _ => ⟨3, by omega, rfl⟩
    | 4 => fun k owes => ⟨4, by omega, by revert k; decide⟩
    | n + 5 => fun k owes => by
      have none : ∀ k, ¬(answeredBy (past outOfOrder 5) k).length <
          (forwardedTo (past outOfOrder 5) k).length := by decide
      rw [(outOfOrder_rests n k).1, (outOfOrder_rests n k).2] at owes
      exact absurd owes (none k)
  takes
    | 0 | 1 | 2 | 3 | 4 => ⟨5, by omega, rfl⟩
    | n + 5 => ⟨n + 5, Nat.le_refl _, rfl⟩

theorem responses_in_request_order_forked :
    delivered (past outOfOrder 5) = [50, 60] ∧ Ordered (past outOfOrder 5) ∧
      ∃ m, 2 ≤ m ∧ (accepted (past outOfOrder 2)).length ≤ (delivered (past outOfOrder m)).length :=
  ⟨by decide, (responses_in_request_order outOfOrder).1 5 fun m _ => outOfOrder_admitted m,
    (responses_in_request_order outOfOrder).2 outOfOrder_admitted outOfOrder_fair 2⟩

end Demux

end SnitchCluster.Reqrsp
