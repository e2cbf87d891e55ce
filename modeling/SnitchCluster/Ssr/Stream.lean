/-
# Ssr.Stream -- the read datapath is a lossless in-order stream

Reading, the data mover is a server of orders: an address it takes is an order,
blank when a zero is injected, a response is supply, and every lane handshake is a
delivery.  `Reading` relates its queues and counters to the window of such a
server.  One cycle is any combination of the server's events (`Reading.next`); in
it the credit counter stays in range and no queue overflows or underflows
(`Reading.protocol`).
-/
import SnitchCluster.Ssr.DataMover
import SnitchCluster.Theory.Clocked
import SnitchCluster.Theory.Supply

namespace SnitchCluster.Ssr.DataMover

open Theory Theory.Supply

variable {C : Cfg} {D : DmParts C}

/-- A cycle uses the credit counter and the data queue within their ranges. -/
structure Protocol (s : DataMover D) (i : DmIn C) : Prop where
  credit : Credit.InRange s.credit (s.creditGive i) (s.creditTake i)
  push : s.fifoPush i = true → s.fifoFull = false
  pop : s.fifoPop i = true → s.fifoEmpty = false

theorem fifoEmpty_eq (s : DataMover D) : s.fifoEmpty = (D.fifo.contents s.fifo).isEmpty :=
  D.fifo.lawful.empty_eq_isEmpty s.fifo

theorem fifoFull_eq (s : DataMover D) :
    s.fifoFull = decide (C.DataCredits ≤ (D.fifo.contents s.fifo).length) :=
  D.fifo.lawful.full_eq_decide s.fifo

/-- The data mover as the server of the orders `out`. -/
structure Reading (s : DataMover D) (orders : List Order)
    (supply delivered : List (BitVec C.DataWidth)) (out : List Order) : Prop where
  window : Window 0 orders supply delivered out (D.fifo.contents s.fifo) s.rep.toNat
  zeros : C.IsectMaster = true → D.zeroFifo.contents s.zeroFifo = out.map Order.blank
  plain : C.IsectMaster = false → ∀ o ∈ out, o.blank = false
  stocked : (D.fifo.contents s.fifo).length ≤ needs out
  credit : s.credit.toNat + out.length = C.DataCredits
  small : ∀ o ∈ out, o.again < 2 ^ C.RptWidth

namespace Reading

variable {s : DataMover D} {orders : List Order} {supply delivered : List (BitVec C.DataWidth)}
  {out : List Order} (reading : Reading s orders supply delivered out)

include reading

/-! ## What the lane sees -/

/-- The wires of the zero queue show the first order. -/
theorem zero_head : (!s.zeroEmpty && s.laneZero) = (out.head?.map Order.blank).getD false := by
  rw [zeroEmpty, laneZero]
  cases master : C.IsectMaster with
  | true =>
    have flags := reading.zeros master
    rw [if_pos rfl, Bool.true_and, D.zeroFifo.lawful.empty_eq_isEmpty, flags]
    cases out with
    | nil => rfl
    | cons o others =>
      rw [D.zeroFifo.lawful.data_head _ _ _ flags]
      rfl
  | false =>
    have plain := reading.plain master
    cases out with
    | nil => rfl
    | cons o others =>
      rw [List.head?_cons, Option.map_some, Option.getD_some, plain o List.mem_cons_self]
      rfl

theorem laneZero_eq {o : Order} {others : List Order} (first : out = o :: others) :
    s.laneZero = o.blank := by
  have head := reading.zero_head
  rw [first] at head
  cases master : C.IsectMaster with
  | true =>
    have flags := reading.zeros master
    rw [first, List.map_cons] at flags
    rw [laneZero, master, D.zeroFifo.lawful.data_head _ _ _ flags]
    rfl
  | false =>
    rw [laneZero, master, reading.plain master o (first ▸ List.mem_cons_self)]
    rfl

/-- The lane is offered a value exactly when the first order is filled. -/
theorem laneValid_iff {i : DmIn C} (mode : s.dmWrite i = false) :
    s.laneValid i = true ↔ serve 0 out (D.fifo.contents s.fifo) ≠ [] := by
  rw [laneValid, if_neg (Bool.not_eq_true _ ▸ mode), reading.zero_head, fifoEmpty_eq]
  have stocked := reading.stocked
  cases out with
  | nil =>
    rw [needs_nil, Nat.le_zero, List.length_eq_zero_iff] at stocked
    rw [stocked]
    simp
  | cons o others =>
    cases blank : o.blank with
    | true => simp [blank, serve_blank]
    | false =>
      cases held : D.fifo.contents s.fifo with
      | nil => simp [blank, serve_waits]
      | cons x rest => simp [serve_filled _ blank]

/-- And it is the value the order is filled with. -/
theorem laneRdata_eq {x : BitVec C.DataWidth} {n : Nat} {rest : List (BitVec C.DataWidth × Nat)}
    (served : serve 0 out (D.fifo.contents s.fifo) = (x, n) :: rest) : s.laneRdata = x := by
  cases split : out with
  | nil =>
    rw [split] at served
    exact absurd served.symm (List.cons_ne_nil _ _)
  | cons o others =>
    rw [laneRdata, reading.laneZero_eq split]
    rw [split] at served
    cases blank : o.blank with
    | true =>
      rw [serve_blank 0 blank] at served
      exact (Prod.mk.inj (List.cons.inj served).1).1
    | false =>
      cases held : D.fifo.contents s.fifo with
      | nil =>
        rw [held, serve_waits 0 blank] at served
        exact absurd served.symm (List.cons_ne_nil _ _)
      | cons y stock =>
        rw [held, serve_filled 0 blank] at served
        rw [if_neg Bool.false_ne_true, D.fifo.lawful.data_head _ _ _ held]
        exact (Prod.mk.inj (List.cons.inj served).1).1

/-! ## One cycle -/

/-- What a lane handshake finds: the first order, filled. -/
theorem served_of_laneHs {i : DmIn C} (mode : s.dmWrite i = false) (hs : s.laneHs i = true) :
    ∃ o others rest, out = o :: others ∧
      serve 0 out (D.fifo.contents s.fifo) = (s.laneRdata, o.again) :: rest := by
  rw [laneHs, Bool.and_eq_true, reading.laneValid_iff mode] at hs
  obtain ⟨⟨x, n⟩, rest, served⟩ := List.exists_cons_of_ne_nil hs.2
  have value := reading.laneRdata_eq served
  cases out with
  | nil => exact absurd rfl hs.2
  | cons o others =>
    have number := again_of_serve 0 served
    exact ⟨o, others, rest, rfl, by rw [value, ← number, served]⟩

/-- The queue gives up a response exactly when an order that took it is finished. -/
theorem fifoPop_eq {i : DmIn C} (mode : s.dmWrite i = false) :
    s.fifoPop i = (s.laneHs i && s.repDone i && !(out.head?.map Order.blank).getD false) := by
  have read : ¬s.dmWrite i = true := Bool.not_eq_true _ ▸ mode
  rw [fifoPop, if_neg read, repEnable, if_neg read, reading.zero_head, laneHs]

omit reading in
theorem creditGive_eq {i : DmIn C} (mode : s.dmWrite i = false) :
    s.creditGive i = (s.laneHs i && s.repDone i) := by
  have read : ¬s.dmWrite i = true := Bool.not_eq_true _ ▸ mode
  rw [creditGive, if_neg read, repEnable, if_neg read, laneHs]

omit reading in
theorem rep_next {i : DmIn C} (mode : s.dmWrite i = false) :
    (s.next i).rep =
      if s.laneHs i then if s.repDone i then 0 else s.rep + 1 else s.rep := by
  have read : ¬s.dmWrite i = true := Bool.not_eq_true _ ▸ mode
  have register : (s.next i).rep =
      ffLoadClear s.rep (s.rep + 1) (s.repEnable i) (s.repEnable i && s.repDone i) 0 := rfl
  rw [register, repEnable, if_neg read, ffLoadClear, laneHs]
  cases i.laneReady && s.laneValid i <;> cases s.repDone i <;> rfl

/-- The first order has not been delivered more often than it asks for. -/
theorem begun {o : Order} {others : List Order} (first : out = o :: others) :
    s.rep.toNat ≤ o.again := by
  rcases reading.window.partway with none | ⟨x, n, rest, served, below⟩
  · rw [none]
    exact Nat.zero_le _
  · rw [first] at served
    rwa [again_of_serve 0 served] at below

/-- Short of the last delivery the repetition counter does not wrap. -/
theorem unfinished {o : Order} {others : List Order} (first : out = o :: others) {i : DmIn C}
    (agree : s.repDone i = true ↔ s.rep.toNat = o.again) (more : ¬s.repDone i = true) :
    s.rep.toNat < o.again ∧ (s.rep + 1).toNat = s.rep.toNat + 1 := by
  have below : s.rep.toNat < o.again :=
    Nat.lt_of_le_of_ne (reading.begun first) fun all => more (agree.mpr all)
  have fits := reading.small o (first ▸ List.mem_cons_self)
  have one : (1 : BitVec C.RptWidth).toNat = 1 % 2 ^ C.RptWidth := rfl
  refine ⟨below, ?_⟩
  rw [BitVec.toNat_add, one, Nat.add_mod_mod, Nat.mod_eq_of_lt (by omega)]

/-- **The lane side of a cycle.** -/
theorem deliver {i : DmIn C} (mode : s.dmWrite i = false)
    (agrees : s.laneHs i = true →
      ∀ o ∈ out.head?, (s.repDone i = true ↔ s.rep.toNat = o.again)) :
    Window 0 orders supply (delivered ++ if s.laneHs i then [s.laneRdata] else [])
      (if s.creditGive i then out.tail else out)
      (if s.fifoPop i then (D.fifo.contents s.fifo).tail else D.fifo.contents s.fifo)
      (s.next i).rep.toNat := by
  have window := reading.window
  rw [reading.fifoPop_eq mode, creditGive_eq mode, rep_next mode]
  by_cases hs : s.laneHs i = true
  · obtain ⟨o, others, rest, first, served⟩ := reading.served_of_laneHs mode hs
    have agree := agrees hs o (first ▸ rfl)
    rw [hs, if_pos rfl, if_pos rfl, first, List.head?_cons, Option.map_some, Option.getD_some]
    by_cases done : s.repDone i = true
    · -- the order is finished
      have last := window.last served (agree.mp done) first
      rw [done, if_pos rfl]
      cases blank : o.blank with
      | true => simpa [blank] using last
      | false => simpa [blank] using last
    · obtain ⟨unfinished, count⟩ := reading.unfinished first agree done
      have again := window.again served unfinished
      rw [← count, first] at again
      rw [Bool.not_eq_true] at done
      rw [done]
      exact again
  · rw [Bool.not_eq_true] at hs
    rw [hs]
    simpa using window

/-- A response that answers a request finds its order unfilled. -/
theorem short (answered : supply.length < needs orders) :
    (D.fifo.contents s.fifo).length < needs out := by
  have balance := reading.window.balance
  omega

omit reading in
theorem credit_of_agenHs {i : DmIn C} (mode : s.dmWrite i = false) (hs : s.agenHs i = true) :
    0 < s.credit.toNat := by
  rw [← Credit.left_iff]
  rw [agenHs, agenReady, Bool.and_eq_true, Bool.and_eq_true] at hs
  have ready := hs.2.2
  split at ready
  · exact ready
  · have read : ¬s.dmWrite i = true := Bool.not_eq_true _ ▸ mode
    rw [dataQvalid, if_neg read] at ready
    simp only [Bool.and_eq_true] at ready
    exact ready.1.1.1.2

theorem out_of_creditGive {i : DmIn C} (mode : s.dmWrite i = false)
    (give : s.creditGive i = true) : ∃ o others, out = o :: others := by
  rw [creditGive_eq mode, Bool.and_eq_true] at give
  obtain ⟨o, others, _, first, _⟩ := reading.served_of_laneHs mode give.1
  exact ⟨o, others, first⟩

omit reading in
/-- A request is granted for every address taken, but for injected zeros. -/
theorem request_eq {i : DmIn C} (mode : s.dmWrite i = false) :
    (s.dataQvalid i && i.qReady) = (s.agenHs i && !i.agenZero) := by
  have read : ¬s.dmWrite i = true := Bool.not_eq_true _ ▸ mode
  rw [agenHs, agenReady, dataQvalid, if_neg read]
  cases i.agenZero with
  | true => simp
  | false =>
    cases i.agenValid <;> cases s.agenFlush i <;> simp

/-- The orders outstanding are those whose credits are not back. -/
theorem outstanding_eq : orders.drop (orders.length - (C.DataCredits - s.credit.toNat)) = out := by
  obtain ⟨done, gone, split, _⟩ := reading.window.past
  have total := reading.credit
  have size : (done ++ out).length - (C.DataCredits - s.credit.toNat) = done.length := by
    rw [List.length_append]
    omega
  rw [split, size, List.drop_left]

omit reading in
theorem creditTake_eq {i : DmIn C} (mode : s.dmWrite i = false) :
    s.creditTake i = s.agenHs i := by
  have read : ¬s.dmWrite i = true := Bool.not_eq_true _ ▸ mode
  rw [creditTake, if_neg read, agenHs]

/-- **A cycle stays within the ranges of the counter and the queue.** -/
theorem protocol {i : DmIn C} (mode : s.dmWrite i = false)
    (answers : i.pValid = true → supply.length < needs orders) : Protocol s i where
  credit := by
    have total := reading.credit
    refine ⟨fun take _ => ?_, fun give _ => ?_⟩
    · rw [creditTake_eq mode] at take
      exact credit_of_agenHs mode take
    · obtain ⟨o, others, first⟩ := reading.out_of_creditGive mode give
      rw [first, List.length_cons] at total
      omega
  push push := by
    have read : ¬s.dmWrite i = true := Bool.not_eq_true _ ▸ mode
    rw [fifoPush, if_neg read] at push
    have room := reading.short (answers push)
    have most := needs_le_length out
    have total := reading.credit
    rw [fifoFull_eq, decide_eq_false_iff_not]
    omega
  pop pop := by
    rw [reading.fifoPop_eq mode, Bool.and_eq_true, Bool.and_eq_true] at pop
    obtain ⟨⟨hs, _⟩, filled⟩ := pop
    obtain ⟨o, others, rest, first, served⟩ := reading.served_of_laneHs mode hs
    rw [first] at filled served
    have takes : o.blank = false := by simpa using filled
    rw [fifoEmpty_eq, List.isEmpty_eq_false_iff]
    intro none
    rw [none, serve_waits 0 takes] at served
    exact absurd served.symm (List.cons_ne_nil _ _)

theorem fifo_next {i : DmIn C} (mode : s.dmWrite i = false)
    (answers : i.pValid = true → supply.length < needs orders) :
    D.fifo.contents (s.next i).fifo =
      (if s.fifoPop i then (D.fifo.contents s.fifo).tail else D.fifo.contents s.fifo) ++
        if i.pValid then [i.pData] else [] := by
  have keeps := reading.protocol mode answers
  have read : ¬s.dmWrite i = true := Bool.not_eq_true _ ▸ mode
  have law := D.fifo.lawful.next s.fifo (s.fifoPush i) (s.fifoIn i) (s.fifoPop i)
    keeps.push keeps.pop
  have push : s.fifoPush i = i.pValid := by rw [fifoPush, if_neg read]
  have value : s.fifoIn i = i.pData := by rw [fifoIn, if_neg read]
  rw [push, value] at law
  have register : (s.next i).fifo =
      D.fifo.next s.fifo false (s.fifoPush i) (s.fifoIn i) (s.fifoPop i) := rfl
  rw [register, push, value]
  exact law

theorem zeros_next {i : DmIn C} (mode : s.dmWrite i = false) (master : C.IsectMaster = true) :
    D.zeroFifo.contents (s.next i).zeroFifo =
      ((if s.creditGive i then out.tail else out).map Order.blank) ++
        if s.agenHs i then [i.agenZero] else [] := by
  have flags := reading.zeros master
  have total := reading.credit
  have register : (s.next i).zeroFifo = D.zeroFifo.next s.zeroFifo false
      (s.creditTake i && !s.dmWrite i) i.agenZero (s.creditGive i && !s.zeroEmpty) :=
    if_pos master
  have law := D.zeroFifo.lawful.next s.zeroFifo (s.agenHs i) i.agenZero
    (s.creditGive i && !s.zeroEmpty) (fun hs => by
      have some := credit_of_agenHs mode hs
      rw [D.zeroFifo.lawful.full_eq_decide, flags, List.length_map, decide_eq_false_iff_not]
      omega) (fun pop => by
      rw [Bool.and_eq_true, Bool.not_eq_true', zeroEmpty, if_pos master] at pop
      exact pop.2)
  have pop : (s.creditGive i && !s.zeroEmpty) = s.creditGive i := by
    cases give : s.creditGive i with
    | false => rfl
    | true =>
      obtain ⟨o, others, first⟩ := reading.out_of_creditGive mode give
      rw [zeroEmpty, if_pos master, D.zeroFifo.lawful.empty_eq_isEmpty, flags, first]
      rfl
  rw [register, creditTake_eq mode, mode, Bool.not_false, Bool.and_true, law, pop, flags]
  cases s.creditGive i <;> simp

/-- A finished order gives up the supply it took. -/
theorem needs_next {i : DmIn C} (mode : s.dmWrite i = false) :
    needs (if s.creditGive i then out.tail else out) + (s.fifoPop i).toNat = needs out := by
  cases give : s.creditGive i with
  | false =>
    rw [creditGive_eq mode] at give
    rw [reading.fifoPop_eq mode, give]
    rfl
  | true =>
    obtain ⟨o, others, first⟩ := reading.out_of_creditGive mode give
    rw [creditGive_eq mode] at give
    rw [reading.fifoPop_eq mode, give, first, needs_cons]
    rfl

theorem length_fifo_next {i : DmIn C} (mode : s.dmWrite i = false)
    (answers : i.pValid = true → supply.length < needs orders) :
    (D.fifo.contents (s.next i).fifo).length + (s.fifoPop i).toNat =
      (D.fifo.contents s.fifo).length + i.pValid.toNat := by
  have arrival : ((if i.pValid then [i.pData] else []) : List (BitVec C.DataWidth)).length =
      i.pValid.toNat := by cases i.pValid <;> rfl
  rw [reading.fifo_next mode answers, List.length_append, arrival]
  cases pop : s.fifoPop i with
  | false => simp
  | true =>
    have some := (reading.protocol mode answers).pop pop
    rw [fifoEmpty_eq, List.isEmpty_eq_false_iff, ← List.length_pos_iff] at some
    simp only [if_true, List.length_tail, Bool.toNat_true]
    omega

/-- Finished orders leave the queue no fuller than the others need. -/
theorem stocked_next {i : DmIn C} (mode : s.dmWrite i = false)
    (answers : i.pValid = true → supply.length < needs orders) (more : List Order) :
    (D.fifo.contents (s.next i).fifo).length ≤
      needs ((if s.creditGive i then out.tail else out) ++ more) := by
  have stocked := reading.stocked
  have room : (D.fifo.contents s.fifo).length + i.pValid.toNat ≤ needs out := by
    cases valid : i.pValid with
    | false => exact stocked
    | true => exact reading.short (answers valid)
  have count := reading.length_fifo_next mode answers
  have taken := reading.needs_next mode
  rw [needs_append]
  omega

theorem credit_next {i : DmIn C} (mode : s.dmWrite i = false)
    (answers : i.pValid = true → supply.length < needs orders) (o : Order) :
    (s.next i).credit.toNat + ((if s.creditGive i then out.tail else out) ++
      if s.agenHs i then [o] else []).length = C.DataCredits := by
  have total := reading.credit
  have register : (s.next i).credit =
      s.credit.next (Credit.initial _ false) (s.creditGive i) (s.creditTake i) false := rfl
  have count := Credit.toNat_next s.credit (Credit.initial _ false)
    (reading.protocol mode answers).credit
  have issue : (if s.agenHs i then [o] else []).length = (s.agenHs i).toNat := by
    cases s.agenHs i <;> rfl
  rw [creditTake_eq mode] at count
  rw [register, creditTake_eq mode, List.length_append, issue]
  cases give : s.creditGive i with
  | false =>
    rw [give, Bool.toNat_false] at count
    rw [if_neg Bool.false_ne_true]
    omega
  | true =>
    obtain ⟨p, others, first⟩ := reading.out_of_creditGive mode give
    rw [give, Bool.toNat_true] at count
    rw [first, List.length_cons] at total
    rw [if_pos rfl, first, List.tail_cons]
    omega

/-- **One cycle of reading.**  An address taken is an order, a response is supply,
a lane handshake is a delivery. -/
theorem next {i : DmIn C} (mode : s.dmWrite i = false)
    (answers : i.pValid = true → supply.length < needs orders)
    (injects : s.agenHs i = true → i.agenZero = true → C.IsectMaster = true)
    (agrees : s.laneHs i = true →
      ∀ o ∈ out.head?, (s.repDone i = true ↔ s.rep.toNat = o.again))
    {again : Nat} (small : again < 2 ^ C.RptWidth) :
    Reading (s.next i) (orders ++ if s.agenHs i then [⟨i.agenZero, again⟩] else [])
      (supply ++ if i.pValid then [i.pData] else [])
      (delivered ++ if s.laneHs i then [s.laneRdata] else [])
      ((if s.creditGive i then out.tail else out) ++
        if s.agenHs i then [⟨i.agenZero, again⟩] else []) where
  window := by
    rw [reading.fifo_next mode answers]
    exact (reading.deliver mode agrees).grow _ _
  zeros master := by
    rw [reading.zeros_next mode master, List.map_append]
    cases s.agenHs i <;> rfl
  plain slave o member := by
    rcases List.mem_append.mp member with old | new
    · refine reading.plain slave o ?_
      split at old
      · exact List.mem_of_mem_tail old
      · exact old
    · split at new
      · rename_i hs
        have none := injects hs
        rw [slave] at none
        rw [List.mem_singleton.mp new]
        exact Bool.not_eq_true _ ▸ fun zero => Bool.noConfusion (none zero)
      · exact absurd new List.not_mem_nil
  stocked := reading.stocked_next mode answers _
  credit := reading.credit_next mode answers _
  small o member := by
    rcases List.mem_append.mp member with old | new
    · refine reading.small o ?_
      split at old
      · exact List.mem_of_mem_tail old
      · exact old
    · split at new
      · rw [List.mem_singleton.mp new]
        exact small
      · exact absurd new List.not_mem_nil

end Reading

/-- Nothing is on its way in either direction. -/
structure Drained (s : DataMover D) : Prop where
  fifo : D.fifo.contents s.fifo = []
  zeroFifo : D.zeroFifo.contents s.zeroFifo = []
  credit : s.credit.toNat = C.DataCredits
  rep : s.rep = 0

theorem drained_init (D : DmParts C) : Drained (init D) where
  fifo := D.fifo.lawful.init
  zeroFifo := D.zeroFifo.lawful.init
  credit := Credit.toNat_initial _
  rep := rfl

theorem Drained.reading {s : DataMover D} (drained : Drained s) : Reading s [] [] [] [] where
  window := by
    rw [drained.fifo, drained.rep]
    exact Window.start
  zeros _ := drained.zeroFifo
  plain _ _ member := absurd member List.not_mem_nil
  stocked := by
    rw [drained.fifo]
    exact Nat.le_refl _
  credit := drained.credit
  small _ member := absurd member List.not_mem_nil

/-! ## Runs of a read job -/

/-- What a cycle of the data mover shows. -/
structure Obs (C : Cfg) where
  order : Option Order
  response : Option (BitVec C.DataWidth)
  delivery : Option (BitVec C.DataWidth)

/-- The data mover as a machine.  An address taken is an order with the repeat
value in force. -/
def machine (D : DmParts C) : Machine (DataMover D) (DmIn C) (Obs C) where
  obs s i :=
    { order := if s.agenHs i then some ⟨i.agenZero, i.repMax.toNat⟩ else none
      response := if i.pValid then some i.pData else none
      delivery := if s.laneHs i then some s.laneRdata else none }
  next := next

/-- The addresses issued. -/
def issued (past : List (Obs C)) : List Order := past.filterMap Obs.order

/-- The responses of the memory. -/
def responses (past : List (Obs C)) : List (BitVec C.DataWidth) := past.filterMap Obs.response

/-- The values the lane has taken. -/
def delivered (past : List (Obs C)) : List (BitVec C.DataWidth) := past.filterMap Obs.delivery

/-- A read job with repeat value `r` and an in-order memory: a response answers a
request of an earlier cycle. -/
def readJob (D : DmParts C) (r : BitVec C.RptWidth) :
    Machine.Env (DataMover D) (DmIn C) (Obs C) := fun past _ i =>
  i.agenWrite = false ∧ i.repMax = r ∧ (i.agenZero = true → C.IsectMaster = true) ∧
    (i.pValid = true → (responses past).length < needs (issued past))

instance (r : BitVec C.RptWidth) (past : List (Obs C)) (s : DataMover D) (i : DmIn C) :
    Decidable (readJob D r past s i) := inferInstanceAs (Decidable (_ ∧ _ ∧ _ ∧ _))

theorem issued_concat (past : List (Obs C)) (s : DataMover D) (i : DmIn C) :
    issued (past ++ [(machine D).obs s i]) =
      issued past ++ if s.agenHs i then [⟨i.agenZero, i.repMax.toNat⟩] else [] := by
  have shown : ((machine D).obs s i).order =
      if s.agenHs i then some ⟨i.agenZero, i.repMax.toNat⟩ else none := rfl
  rw [issued, List.filterMap_append, List.filterMap_cons, List.filterMap_nil, shown]
  cases s.agenHs i <;> rfl

theorem responses_concat (past : List (Obs C)) (s : DataMover D) (i : DmIn C) :
    responses (past ++ [(machine D).obs s i]) =
      responses past ++ if i.pValid then [i.pData] else [] := by
  have shown : ((machine D).obs s i).response = if i.pValid then some i.pData else none := rfl
  rw [responses, List.filterMap_append, List.filterMap_cons, List.filterMap_nil, shown]
  cases i.pValid <;> rfl

theorem delivered_concat (past : List (Obs C)) (s : DataMover D) (i : DmIn C) :
    delivered (past ++ [(machine D).obs s i]) =
      delivered past ++ if s.laneHs i then [s.laneRdata] else [] := by
  have shown : ((machine D).obs s i).delivery =
      if s.laneHs i then some s.laneRdata else none := rfl
  rw [delivered, List.filterMap_append, List.filterMap_cons, List.filterMap_nil, shown]
  cases s.laneHs i <;> rfl

/-- The state of a read job. -/
structure ReadRun (r : BitVec C.RptWidth) (past : List (Obs C)) (s : DataMover D) : Prop where
  reading : ∃ out, Reading s (issued past) (responses past) (delivered past) out
  turned : s.agenWriteQ = true → s.credit.toNat = C.DataCredits
  uniform : ∀ o ∈ issued past, o.again = r.toNat

theorem dmWrite_read {s : DataMover D} {i : DmIn C} (reads : i.agenWrite = false)
    (turned : s.agenWriteQ = true → s.credit.toNat = C.DataCredits) : s.dmWrite i = false := by
  rw [dmWrite, agenFlush, reads, Bool.false_xor]
  cases before : s.agenWriteQ with
  | false => rfl
  | true =>
    have full : s.creditFull = true := (Credit.full_iff _).mpr (turned before)
    rw [full]
    rfl

theorem ReadRun.next {r : BitVec C.RptWidth} {past : List (Obs C)} {s : DataMover D}
    (run : ReadRun r past s) {i : DmIn C} (admitted : readJob D r past s i) :
    ReadRun r (past ++ [(machine D).obs s i]) (s.next i) := by
  obtain ⟨reads, repeats, injects, answers⟩ := admitted
  obtain ⟨out, reading⟩ := run.reading
  have mode := dmWrite_read reads run.turned
  have orderly : ∀ o ∈ out, o.again = r.toNat := by
    obtain ⟨done, gone, split, _⟩ := reading.window.past
    exact fun o member => run.uniform o (split ▸ List.mem_append_right _ member)
  have agrees : s.laneHs i = true →
      ∀ o ∈ out.head?, (s.repDone i = true ↔ s.rep.toNat = o.again) := by
    intro _ o first
    rw [repDone, repeats, beq_iff_eq, orderly o (List.mem_of_head? first), BitVec.toNat_inj]
  have after := reading.next mode answers (fun _ => injects) agrees i.repMax.isLt
  rw [← issued_concat, ← responses_concat, ← delivered_concat] at after
  refine ⟨⟨_, after⟩, ?_, ?_⟩
  · intro before
    have register : (s.next i).agenWriteQ = if s.agenHs i then i.agenWrite else s.agenWriteQ := rfl
    rw [register, reads] at before
    split at before
    · exact Bool.noConfusion before
    · rename_i waits
      have total := reading.credit
      have full := run.turned before
      have none : out = [] := List.length_eq_zero_iff.mp (by omega)
      have count := after.credit
      rw [if_neg waits, none, List.append_nil, List.tail_nil, ite_self] at count
      exact count
  · rw [issued_concat, List.forall_mem_append]
    refine ⟨run.uniform, fun o member => ?_⟩
    split at member
    · rw [List.mem_singleton.mp member, repeats]
    · exact absurd member List.not_mem_nil

theorem readRun_of_reaches {r : BitVec C.RptWidth} {start s : DataMover D} {past : List (Obs C)}
    (drained : Drained start) (reached : (machine D).Reaches (readJob D r) start past s) :
    ReadRun r past s :=
  reached.invariant (ReadRun r)
    ⟨⟨[], drained.reading⟩, fun _ => drained.credit, fun _ member => absurd member List.not_mem_nil⟩
    fun _ _ _ _ run admitted => run.next admitted

/-- **The read datapath.**  For every repeat value and number of credits, every
in-order memory and every behaviour of the lane: the values taken by the lane are a
prefix of the responses in the order of the addresses, zero for an injected zero,
each `r + 1` times, and all of them when all credits are back; the lane is offered
the next one as soon as it is there; the credits not in the counter are the
elements issued and not fully consumed; and no cycle takes the counter or the queue
out of range. -/
theorem read_stream {r : BitVec C.RptWidth} {start s : DataMover D} {past : List (Obs C)}
    (drained : Drained start) (reached : (machine D).Reaches (readJob D r) start past s) :
    (∀ o ∈ issued past, o.again = r.toNat) ∧
      delivered past <+: expected 0 (issued past) (responses past) ∧
      (s.credit.toNat = C.DataCredits →
        delivered past = expected 0 (issued past) (responses past)) ∧
      s.credit.toNat + (issued past).length =
        C.DataCredits + (delivered past).length / (r.toNat + 1) ∧
      ∀ i, readJob D r past s i → Protocol s i ∧
        (s.laneValid i = true ↔
          (delivered past).length < (expected 0 (issued past) (responses past)).length) := by
  have run := readRun_of_reaches drained reached
  obtain ⟨out, reading⟩ := run.reading
  have total := reading.credit
  refine ⟨run.uniform, reading.window.prefix_expected, fun full => ?_, ?_, fun i admitted => ?_⟩
  · have none : out = [] := List.length_eq_zero_iff.mp (by omega)
    subst none
    exact reading.window.finished
  · have count := reading.window.completed run.uniform
    omega
  · obtain ⟨reads, _, _, answers⟩ := admitted
    have mode := dmWrite_read reads run.turned
    exact ⟨reading.protocol mode answers,
      (reading.laneValid_iff mode).trans reading.window.short_iff.symm⟩

/-- One element, answered two cycles later and taken twice by a lane that stalls
in between. -/
def oneElement : List (DmIn .affine) :=
  [{ repMax := 1, agenValid := true, qReady := true },
    { repMax := 1, laneReady := true },
    { repMax := 1, pValid := true, pData := 7 },
    { repMax := 1, laneReady := true },
    { repMax := 1 },
    { repMax := 1, laneReady := true }]

/-- It is delivered twice. -/
theorem read_stream_twice : delivered ((machine (.ofList .affine)).trace (init _) oneElement) = [7, 7] :=
  ((read_stream (drained_init (.ofList .affine)) ((machine (.ofList .affine)).reaches_run (init _) oneElement
    (by decide : (machine (.ofList .affine)).Admits (readJob _ 1) [] (init _) oneElement))).2.2.1
      rfl).trans rfl

end SnitchCluster.Ssr.DataMover
