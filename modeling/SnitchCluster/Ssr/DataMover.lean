/-
# Ssr.DataMover -- the datapath between the memory and a register lane

The part of `snitch_ssr` behind the address generator: the data queue both
directions share, the queue of zero flags, the credit counter and the repetition
counter.

One set of wires serves both directions.  Reading, the queue holds responses for
the lane and a credit is an element on its way; writing, it holds values of the
lane and a credit is a response still to come.
-/
import SnitchCluster.Ssr.Indirector

namespace SnitchCluster.Ssr

open Theory

variable {C : Cfg}

/-- The cells: the data queue and the queue of zero flags. -/
structure DmParts (C : Cfg) where
  fifo : LawfulFifo (BitVec C.DataWidth) C.DataCredits
  zeroFifo : LawfulFifo Bool C.DataCredits

def DmParts.ofList (C : Cfg) : DmParts C := ⟨.ofList _ 0, .ofList _ false⟩

/-- The registers. -/
structure DataMover (D : DmParts C) where
  fifo : D.fifo.State
  zeroFifo : D.zeroFifo.State
  credit : Credit C.DataCredits
  rep : BitVec C.RptWidth
  agenWriteQ : Bool

def DataMover.init (D : DmParts C) : DataMover D where
  fifo := D.fifo.init
  zeroFifo := D.zeroFifo.init
  credit := Credit.initial _ false
  rep := 0
  agenWriteQ := false

/-- The inputs of a cycle: the address generator, the data port of the memory and
the lane. -/
structure DmIn (C : Cfg) where
  agenValid : Bool := false
  agenWrite : Bool := false
  agenZero : Bool := false
  repMax : BitVec C.RptWidth := 0
  qReady : Bool := false
  pValid : Bool := false
  pData : BitVec C.DataWidth := 0
  laneReady : Bool := false
  laneWdata : BitVec C.DataWidth := 0

namespace DataMover

variable {D : DmParts C} (s : DataMover D) (i : DmIn C)

/-! ## Direction -/

def hasCredit : Bool := s.credit.left

def creditFull : Bool := s.credit.full

def fifoFull : Bool := D.fifo.full s.fifo

def fifoEmpty : Bool := D.fifo.empty s.fifo

/-- `agen_flush`: the direction reverses and the credits are not back. -/
def agenFlush : Bool := (i.agenWrite ^^ s.agenWriteQ) && !s.creditFull

/-- `dm_write`. -/
def dmWrite : Bool := if s.agenFlush i then s.agenWriteQ else i.agenWrite

/-! ## Zero flags -/

def zeroEmpty : Bool := if C.IsectMaster then D.zeroFifo.empty s.zeroFifo else true

def laneZero : Bool := C.IsectMaster && D.zeroFifo.data s.zeroFifo

/-! ## The two ports -/

/-- `data_req_qvalid`. -/
def dataQvalid : Bool :=
  if s.dmWrite i then i.agenValid && !s.fifoEmpty && s.hasCredit && !s.agenFlush i
  else i.agenValid && !s.fifoFull && s.hasCredit && !i.agenZero && !s.agenFlush i

/-- `agen_ready`. -/
def agenReady : Bool :=
  !s.agenFlush i && if i.agenZero then s.hasCredit else s.dataQvalid i && i.qReady

/-- An address is taken from the generator. -/
def agenHs : Bool := i.agenValid && s.agenReady i

/-- `lane_valid_o`. -/
def laneValid : Bool :=
  if s.dmWrite i then !s.fifoFull else !s.fifoEmpty || (!s.zeroEmpty && s.laneZero)

/-- `lane_rdata_o`. -/
def laneRdata : BitVec C.DataWidth := if s.laneZero then 0 else D.fifo.data s.fifo

/-- The lane and the data mover exchange a value. -/
def laneHs : Bool := i.laneReady && s.laneValid i

/-! ## Repetition, queue and credits -/

def repEnable : Bool := if s.dmWrite i then false else i.laneReady && s.laneValid i

def repDone : Bool := s.rep == i.repMax

def fifoPush : Bool := if s.dmWrite i then i.laneReady && !s.fifoFull else i.pValid

def fifoIn : BitVec C.DataWidth := if s.dmWrite i then i.laneWdata else i.pData

def fifoPop : Bool :=
  if s.dmWrite i then s.dataQvalid i && i.qReady
  else s.repEnable i && s.repDone i && !(!s.zeroEmpty && s.laneZero)

def creditTake : Bool :=
  if s.dmWrite i then s.fifoPop i else i.agenValid && s.agenReady i

def creditGive : Bool :=
  if s.dmWrite i then i.pValid else s.repEnable i && s.repDone i

/-! ## The cycle -/

def next : DataMover D where
  fifo := D.fifo.next s.fifo false (s.fifoPush i) (s.fifoIn i) (s.fifoPop i)
  zeroFifo := if C.IsectMaster then
      D.zeroFifo.next s.zeroFifo false (s.creditTake i && !s.dmWrite i) i.agenZero
        (s.creditGive i && !s.zeroEmpty)
    else s.zeroFifo
  credit := s.credit.next (Credit.initial _ false) (s.creditGive i) (s.creditTake i) false
  rep := ffLoadClear s.rep (s.rep + 1) (s.repEnable i) (s.repEnable i && s.repDone i) 0
  agenWriteQ := if i.agenValid && s.agenReady i then i.agenWrite else s.agenWriteQ

/-! ## The wires of a writing data mover -/

section Writing

variable {s : DataMover D} {i : DmIn C} (write : s.dmWrite i = true)

include write

theorem laneHs_writing : s.laneHs i = (i.laneReady && !s.fifoFull) := by
  rw [laneHs, laneValid, if_pos write]

theorem fifoPush_writing : s.fifoPush i = s.laneHs i := by
  rw [fifoPush, if_pos write, laneHs_writing write]

theorem fifoIn_writing : s.fifoIn i = i.laneWdata := if_pos write

theorem fifoPop_writing : s.fifoPop i = (s.dataQvalid i && i.qReady) := if_pos write

theorem creditTake_writing : s.creditTake i = s.fifoPop i := if_pos write

theorem creditGive_writing : s.creditGive i = i.pValid := if_pos write

/-- What it takes to store a value. -/
theorem stocked_of_dataQvalid (valid : s.dataQvalid i = true) :
    s.fifoEmpty = false ∧ 0 < s.credit.toNat := by
  rw [dataQvalid, if_pos write] at valid
  simp only [Bool.and_eq_true, Bool.not_eq_true'] at valid
  obtain ⟨⟨⟨_, some⟩, credit⟩, _⟩ := valid
  exact ⟨some, (Credit.left_iff _).mp credit⟩

theorem rep_writing : (s.next i).rep = s.rep := by
  show ffLoadClear s.rep _ (s.repEnable i) (s.repEnable i && _) _ = s.rep
  rw [repEnable, if_pos write]
  rfl

end Writing

end DataMover

end SnitchCluster.Ssr
