/-
# Ssr.Composite -- address generator and data mover wired together

`snitch_ssr`: the data mover takes the addresses the generator offers, in the
generator's direction and with its repeat register.

The ready wire between the two is an input of the cycle that `Wired` ties to what
drives it: a generator without output stage may answer it in the same cycle.
-/
import Mathlib.Data.List.Induction
import SnitchCluster.Ssr.Shadow
import SnitchCluster.Ssr.Stream

namespace SnitchCluster.Ssr

open Theory

variable {C : Cfg}

/-- The registers of a stream. -/
structure SnitchSsr (P : AgParts C) (D : DmParts C) where
  agen : AddrGen P
  dm : DataMover D

/-- The inputs of a cycle: those of the generator, the data port of the memory and
the lane.  `laneWrite` is the direction of the lane access, which the register
switch knows and the data mover does not. -/
structure SsrIn (C : Cfg) where
  ag : AgIn C
  qReady : Bool := false
  pValid : Bool := false
  pData : BitVec C.DataWidth := 0
  laneReady : Bool := false
  laneWrite : Bool := false
  laneWdata : BitVec C.DataWidth := 0

namespace SnitchSsr

variable {P : AgParts C} {D : DmParts C}

def init (P : AgParts C) (D : DmParts C) : SnitchSsr P D := ⟨.init P, .init D⟩

/-- The inputs of the data mover. -/
def dmIn (s : SnitchSsr P D) (i : SsrIn C) : DmIn C where
  agenValid := s.agen.memValid i.ag
  agenWrite := s.agen.memWrite
  agenZero := (s.agen.memElem i.ag).zero
  repMax := s.agen.regs.rep
  qReady := i.qReady
  pValid := i.pValid
  pData := i.pData
  laneReady := i.laneReady
  laneWdata := i.laneWdata

/-- The ready wire carries what the data mover drives. -/
def Wired (s : SnitchSsr P D) (i : SsrIn C) : Prop :=
  i.ag.memReady = s.dm.agenReady (s.dmIn i)

instance (s : SnitchSsr P D) (i : SsrIn C) : Decidable (s.Wired i) :=
  inferInstanceAs (Decidable (_ = _))

def next (s : SnitchSsr P D) (i : SsrIn C) : SnitchSsr P D := ⟨s.agen.next i.ag, s.dm.next (s.dmIn i)⟩

/-- An address is handed over when both sides see it. -/
theorem agenHs_eq {s : SnitchSsr P D} {i : SsrIn C} (wired : s.Wired i) :
    s.dm.agenHs (s.dmIn i) = s.agen.memHs i.ag := by
  rw [DataMover.agenHs, AddrGen.memHs, show i.ag.memReady = _ from wired]
  rfl

/-! ## Runs -/

/-- A value exchanged, and the direction it goes. -/
structure Access (C : Cfg) where
  write : Bool
  data : BitVec C.DataWidth
  deriving DecidableEq

/-- What a cycle shows: the generator and its direction, the request granted and
the response on the data port, and the access acknowledged on the lane. -/
structure Obs (C : Cfg) where
  gen : AddrGen.Obs C
  write : Bool
  request : Option (Access C)
  response : Option (BitVec C.DataWidth)
  lane : Option (Access C)

def machine (P : AgParts C) (D : DmParts C) : Machine (SnitchSsr P D) (SsrIn C) (Obs C) where
  obs s i :=
    { gen := (AddrGen.machine P).obs s.agen i.ag
      write := s.agen.memWrite
      request := if s.dm.dataQvalid (s.dmIn i) && i.qReady then
          some ⟨s.agen.memWrite, D.fifo.data s.dm.fifo⟩
        else none
      response := if i.pValid then some i.pData else none
      lane := if s.dm.laneHs (s.dmIn i) then
          some ⟨i.laneWrite, if i.laneWrite then i.laneWdata else s.dm.laneRdata⟩
        else none }
  next := next

/-- An element of a job: its direction, and as an order its zero flag and the
repeat value of the job. -/
structure Elem where
  write : Bool
  order : Order
  deriving DecidableEq

/-- The elements handed over so far and the repeat value of the job started last. -/
def account (a : List Elem × Nat) (o : Obs C) : List Elem × Nat :=
  (a.1 ++ (o.gen.element.map fun e => (⟨o.write, ⟨e.zero, a.2⟩⟩ : Elem)).toList,
    (o.gen.started.map fun job => job.regs.rep.toNat).getD a.2)

/-- The elements of all jobs, as far as they were handed over. -/
def elements (past : List (Obs C)) : List Elem := (past.foldl account ([], 0)).1

/-- The repeat value of the job started last. -/
def jobRep (past : List (Obs C)) : Nat := (past.foldl account ([], 0)).2

/-- The requests granted on the data port. -/
def requests (past : List (Obs C)) : List (Access C) := past.filterMap Obs.request

/-- The responses on the data port. -/
def responses (past : List (Obs C)) : List (BitVec C.DataWidth) := past.filterMap Obs.response

/-- The accesses acknowledged on the lane. -/
def accesses (past : List (Obs C)) : List (Access C) := past.filterMap Obs.lane

/-- The generator of a stream runs as it runs alone. -/
theorem generator_run {env : Machine.Env (SnitchSsr P D) (SsrIn C) (Obs C)}
    {past : List (Obs C)} {s : SnitchSsr P D}
    (reached : (machine P D).Reaches env (init P D) past s) :
    (AddrGen.machine P).Reaches AddrGen.anyInputs (.init P) (past.map Obs.gen) s.agen := by
  induction reached with
  | start => exact .start
  | @cycle past s i _ _ ih =>
    have step := ih.cycle (i := i.ag) trivial
    rwa [List.map_append]

theorem elements_concat (past : List (Obs C)) (s : SnitchSsr P D) (i : SsrIn C) :
    elements (past ++ [(machine P D).obs s i]) = elements past ++
      if s.agen.memHs i.ag then
        [⟨s.agen.memWrite, ⟨(s.agen.memElem i.ag).zero, jobRep past⟩⟩]
      else [] := by
  have shown : ((machine P D).obs s i).gen.element =
      if s.agen.memHs i.ag then some (s.agen.memElem i.ag) else none := rfl
  rw [elements, List.foldl_append, List.foldl_cons, List.foldl_nil, account, shown]
  cases s.agen.memHs i.ag <;> rfl

theorem jobRep_lt (past : List (Obs C)) : jobRep past < 2 ^ C.RptWidth := by
  induction past using List.reverseRecOn with
  | nil => exact Nat.two_pow_pos _
  | append_singleton past o ih =>
    rw [jobRep, List.foldl_append, List.foldl_cons, List.foldl_nil, account]
    cases o.gen.started with
    | none => exact ih
    | some job => exact job.regs.rep.isLt

section

variable (past : List (Obs C)) (s : SnitchSsr P D) (i : SsrIn C)

include past s i

theorem requests_concat : requests (past ++ [(machine P D).obs s i]) = requests past ++
      if s.dm.dataQvalid (s.dmIn i) && i.qReady then [⟨s.agen.memWrite, D.fifo.data s.dm.fifo⟩]
      else [] := by
  have shown : ((machine P D).obs s i).request =
      if s.dm.dataQvalid (s.dmIn i) && i.qReady then
        some ⟨s.agen.memWrite, D.fifo.data s.dm.fifo⟩
      else none := rfl
  rw [requests, List.filterMap_append, List.filterMap_cons, List.filterMap_nil, shown]
  cases s.dm.dataQvalid (s.dmIn i) && i.qReady <;> rfl

theorem responses_concat : responses (past ++ [(machine P D).obs s i]) =
      responses past ++ if i.pValid then [i.pData] else [] := by
  have shown : ((machine P D).obs s i).response = if i.pValid then some i.pData else none := rfl
  rw [responses, List.filterMap_append, List.filterMap_cons, List.filterMap_nil, shown]
  cases i.pValid <;> rfl

theorem accesses_concat : accesses (past ++ [(machine P D).obs s i]) = accesses past ++
      if s.dm.laneHs (s.dmIn i) then
        [⟨i.laneWrite, if i.laneWrite then i.laneWdata else s.dm.laneRdata⟩] else [] := by
  have shown : ((machine P D).obs s i).lane = if s.dm.laneHs (s.dmIn i) then
      some ⟨i.laneWrite, if i.laneWrite then i.laneWdata else s.dm.laneRdata⟩ else none := rfl
  rw [accesses, List.filterMap_append, List.filterMap_cons, List.filterMap_nil, shown]
  cases s.dm.laneHs (s.dmIn i) <;> rfl

end

end SnitchSsr

/-! ## Injected zeros -/

namespace AddrGen

variable {P : AgParts C}

/-- Only an intersection master injects zeros. -/
def ZeroSafe (s : AddrGen P) : Prop :=
  ∀ x ∈ P.outSpill.contents s.spill, x.zero = true → C.IsectMaster = true

theorem zero_spillInData (s : AddrGen P) (i : AgIn C) (last : Bool)
    (zero : (s.spillInData i last).zero = true) : C.IsectMaster = true := by
  rw [spillInData] at zero
  split at zero
  · have master : (!C.IsectSlave && Indirector.master (s.indirIn i) &&
        (s.indirIn i).isectMstRsp.zero) = true := zero
    simp only [Bool.and_eq_true, Indirector.master] at master
    exact master.1.2.1
  · exact Bool.noConfusion zero

theorem zeroSafe_init (P : AgParts C) : ZeroSafe (init P) := by
  intro x member
  have empty : P.outSpill.contents (init P).spill = [] := P.outSpill.lawful.init
  rw [empty] at member
  exact absurd member List.not_mem_nil

theorem ZeroSafe.next {s : AddrGen P} (safe : ZeroSafe s) (i : AgIn C) :
    ZeroSafe (s.next i) := by
  intro x member zero
  cases indirection : C.Indirection with
  | false =>
    have register : (s.next i).spill = s.spill := if_neg (by simp [indirection])
    rw [register] at member
    exact safe x member zero
  | true =>
    have register : (s.next i).spill = P.outSpill.next s.spill (s.spillInValid i)
        (s.spillInData i (s.indir.memLast (s.indirIn i) (s.spillInReady i)))
        (s.spillOutReady i) := if_pos indirection
    rw [register] at member
    have law := P.outSpill.lawful.conserve s.spill (s.spillInValid i)
      (s.spillInData i (s.indir.memLast (s.indirIn i) (s.spillInReady i))) (s.spillOutReady i)
    have held := List.mem_append_right
      (if P.outSpill.valid s.spill (s.spillInValid i) && s.spillOutReady i then
        [P.outSpill.data s.spill
          (s.spillInData i (s.indir.memLast (s.indirIn i) (s.spillInReady i)))] else []) member
    rw [← law] at held
    rcases List.mem_append.mp held with old | new
    · exact safe x old zero
    · split at new
      · rw [List.mem_singleton.mp new] at zero
        exact zero_spillInData s i _ zero
      · exact absurd new List.not_mem_nil

theorem ZeroSafe.element {s : AddrGen P} (safe : ZeroSafe s) {i : AgIn C}
    (hs : s.memHs i = true) (zero : (s.memElem i).zero = true) : C.IsectMaster = true := by
  rw [memElem] at zero
  split at zero
  · rename_i indirection
    rw [memHs, memValid, if_pos indirection, Bool.and_eq_true, Bool.and_eq_true] at hs
    have valid := hs.1.1
    rw [spillOutValid, P.outSpill.lawful.valid_eq] at valid
    cases held : P.outSpill.contents s.spill with
    | nil =>
      rw [held, List.isEmpty_nil, Bool.not_true, Bool.false_or, Bool.and_eq_true] at valid
      rw [P.outSpill.lawful.wire_data valid.1] at zero
      exact zero_spillInData s i _ zero
    | cons y rest =>
      rw [P.outSpill.lawful.data_head _ y rest _ held] at zero
      exact safe y (held ▸ List.mem_cons_self) zero
  · exact Bool.noConfusion zero

end AddrGen

end SnitchCluster.Ssr
