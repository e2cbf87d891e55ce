/-
# Ssr.Masters -- two intersection masters and their intersector

Two address generators whose indirectors ask one intersector, every cycle, which of
their indices pass.  The wires between the three are a condition on a cycle (`Wired`):
each master is answered by what the intersector makes of both requests.

An index that passes, and a zero for one that a master lacks, has to leave through the
output of the indirector in the same cycle.  An index is presented only if the output
can take it; the flag of a master that is done is presented without asking.
`elements_kept` is what follows.
-/
import SnitchCluster.Ssr.AddrGen
import SnitchCluster.Ssr.Intersector

namespace SnitchCluster.Ssr

open Theory

namespace Indirector

variable {C : Cfg} {P : IndirParts C} (n : Indirector P) (i : IndirIn C) (memReady : Bool)

/-- The intersector passes an index or asks for a zero: a handshake that is neither a
skip nor the end. -/
def decided : Bool :=
  n.isectMstHs i memReady && !i.isectMstRsp.skip && !i.isectMstRsp.done

/-- An element leaves: a handshake at the output that does not end the job. -/
def emits : Bool := n.memHs i memReady && !n.memDone i

/-- What is decided is accepted by the output. -/
def Taken : Prop := n.decided i memReady = true → n.memHs i memReady = true

/-- What is decided leaves as an element. -/
def Kept : Prop := n.decided i memReady = true → n.emits i memReady = true

/-- The intersector decides on an element while the output is stalled: the master is done
and does not wait for its output. -/
def Stalls : Prop :=
  i.isectMstRsp.ready = true ∧ i.isectMstRsp.skip = false ∧ i.isectMstRsp.done = false ∧
    n.isectMstDoi = true ∧ memReady = false

/-- The intersector decides on an element while the output is stalled or busy with the
end of the job: the master is done and does not wait for its output, or it is cleaning
up. -/
def Loses : Prop :=
  i.isectMstRsp.ready = true ∧ i.isectMstRsp.skip = false ∧ i.isectMstRsp.done = false ∧
    (n.isectMstDoi = true ∧ memReady = false ∨
      n.isectMstDom = true ∧ (n.isectMstDoi = true ∨ n.idxSerValid = true ∧ memReady = true))

instance : Decidable (n.Loses i memReady) := inferInstanceAs (Decidable (_ ∧ _))

/-- The stream is an intersection master. -/
structure IsMaster (i : IndirIn C) : Prop where
  isectMaster : C.IsectMaster = true
  fetches : C.IsectSlave = false
  job : i.cfgIsectMst = true

variable {n i memReady}

section

variable (role : IsMaster i)

include role

theorem IsMaster.master : master i = true := by
  rw [Indirector.master, role.isectMaster, role.job]
  rfl

theorem IsMaster.memDone : n.memDone i = n.isectMstDom := by
  rw [Indirector.memDone, role.fetches, role.master]
  rfl

theorem IsMaster.memValid : n.memValid i memReady = (n.isectMstDom || n.decided i memReady) := by
  rw [Indirector.memValid, role.fetches, role.master]
  rfl

theorem IsMaster.isectMstHs : n.isectMstHs i memReady =
    ((n.isectMstDoi || (n.idxSerValid && memReady)) && i.isectMstRsp.ready) := by
  rw [Indirector.isectMstHs, isectMstReq, role.isectMaster, role.fetches, role.master]
  rfl

/-- An element that leaves has been decided on. -/
theorem IsMaster.emits_eq :
    n.emits i memReady = (n.decided i memReady && memReady && !n.isectMstDom) := by
  rw [emits, memHs, role.memValid, role.memDone]
  cases n.isectMstDom with
  | false => simp
  | true => simp

/-- **Exactly a stalled output loses the handshake.** -/
theorem IsMaster.taken_iff : n.Taken i memReady ↔ ¬n.Stalls i memReady := by
  rw [Taken, memHs, role.memValid, Stalls, decided, role.isectMstHs]
  generalize n.isectMstDoi = doi
  generalize n.isectMstDom = dom
  generalize n.idxSerValid = stocked
  generalize i.isectMstRsp.ready = ready
  generalize i.isectMstRsp.skip = skip
  generalize i.isectMstRsp.done = done
  cases ready <;> cases skip <;> cases done <;> cases memReady <;> cases doi <;> cases dom <;>
    cases stocked <;> decide

/-- **Exactly the losing cycles lose the element.** -/
theorem IsMaster.kept_iff : n.Kept i memReady ↔ ¬n.Loses i memReady := by
  rw [Kept, role.emits_eq, Loses, decided, role.isectMstHs]
  generalize n.isectMstDoi = doi
  generalize n.isectMstDom = dom
  generalize n.idxSerValid = stocked
  generalize i.isectMstRsp.ready = ready
  generalize i.isectMstRsp.skip = skip
  generalize i.isectMstRsp.done = done
  cases ready <;> cases skip <;> cases done <;> cases memReady <;> cases doi <;> cases dom <;>
    cases stocked <;> decide

theorem IsMaster.emits_eq_decided (kept : n.Kept i memReady) :
    n.emits i memReady = n.decided i memReady := by
  cases passes : n.decided i memReady with
  | true => exact kept passes
  | false =>
    rw [role.emits_eq, passes]
    rfl

end

end Indirector

/-! ## The three together -/

/-- The parts: the generators may differ in their sizes, and in the width of an index
from the intersector. -/
structure MastersParts where
  C : Bool → Cfg
  ag : ∀ m, AgParts (C m)
  isect : IsectParts

structure Masters (P : MastersParts) where
  ag : ∀ m, AddrGen (P.ag m)
  isect : Intersector P.isect

def Masters.init (P : MastersParts) : Masters P := ⟨fun m => .init (P.ag m), .init P.isect⟩

/-- The inputs of a cycle: those of the generators, and what slave and stream
controller are ready for. -/
structure MastersIn (P : MastersParts) where
  ag : ∀ m, AgIn (P.C m)
  slvReq : IsectSlvReq := {}
  streamctlReady : Bool := false

namespace Masters

variable {P : MastersParts} (s : Masters P) (i : MastersIn P)

def indir (m : Bool) : Indirector (P.ag m).indir := (s.ag m).indir

def indirIn (m : Bool) : IndirIn (P.C m) := (s.ag m).indirIn (i.ag m)

/-- `mem_ready_i` of the indirectors. -/
def memReady (m : Bool) : Bool := (s.ag m).spillInReady (i.ag m)

/-- `isect_mst_req_o` of a master, as the intersector sees it. -/
def request (m : Bool) : MstReq P.isect.IndexWidth :=
  let req := (s.indir m).isectMstReq (s.indirIn i m) (s.memReady i m)
  { merge := req.merge, slvEna := req.slvEna, idx := req.idx.setWidth _, done := req.done,
    valid := req.valid }

def isectIn : IsectIn P.isect := ⟨s.request i, i.slvReq, i.streamctlReady⟩

/-- Each master is answered by the intersector. -/
def Wired : Prop := ∀ m, (i.ag m).isectMstRsp = s.isect.mstRsp (s.isectIn i) m

def next : Masters P := ⟨fun m => (s.ag m).next (i.ag m), s.isect.next (s.isectIn i)⟩

def decided (m : Bool) : Bool := (s.indir m).decided (s.indirIn i m) (s.memReady i m)

def emits (m : Bool) : Bool := (s.indir m).emits (s.indirIn i m) (s.memReady i m)

def Loses (m : Bool) : Prop := (s.indir m).Loses (s.indirIn i m) (s.memReady i m)

instance (m : Bool) : Decidable (s.Loses i m) := inferInstanceAs (Decidable (_ ∧ _))

/-- Both generators run a merge. -/
def Merging : Prop := ∀ m, Indirector.IsMaster (s.indirIn i m) ∧ (s.indirIn i m).cfgMerge = true

/-- What a cycle shows: the elements that leave the indirectors. -/
structure Obs (P : MastersParts) where
  element : ∀ m, Option (OutElem (P.C m))

def machine (P : MastersParts) : Machine (Masters P) (MastersIn P) (Obs P) where
  obs s i :=
    { element := fun m =>
        if s.emits i m then
          some ((s.ag m).spillInData (i.ag m) ((s.indir m).memLast (s.indirIn i m) (s.memReady i m)))
        else none }
  next := next

/-- The elements a master has emitted. -/
def elements (past : List (Obs P)) (m : Bool) : List (OutElem (P.C m)) :=
  past.filterMap fun o => o.element m

/-- The cycles of a merge, in which no master loses. -/
def mergingKept : Machine.Env (Masters P) (MastersIn P) (Obs P) := fun _ s i =>
  s.Wired i ∧ s.Merging i ∧ ∀ m, ¬s.Loses i m

section Merge

variable {s i}

theorem request_merge (merging : s.Merging i) (m : Bool) : (s.request i m).merge = true := by
  obtain ⟨role, merge⟩ := merging m
  rw [request, Indirector.isectMstReq, role.fetches, role.master]
  exact merge

/-- **A merge decides for both masters at once.** -/
theorem decided_same (wired : s.Wired i) (merging : s.Merging i) :
    s.decided i false = s.decided i true := by
  have merge : (s.isectIn i).mergeEna = true :=
    Intersector.mergeEna_of_all (i := s.isectIn i) (request_merge merging)
  have one : ∀ m, s.decided i m = ((s.isectIn i).srcValid && s.isect.dstAllReady (s.isectIn i) &&
      !(s.isectIn i).isectDone) := by
    intro m
    have answer : (s.indirIn i m).isectMstRsp = s.isect.mstRsp (s.isectIn i) m := wired m
    have hs : (s.indir m).isectMstHs (s.indirIn i m) (s.memReady i m) =
        s.isect.mstHs (s.isectIn i) m := by
      rw [Indirector.isectMstHs, (merging m).1.isectMaster, answer, Bool.true_and]
      rfl
    have noSkip : (s.isect.mstRsp (s.isectIn i) m).skip = false := by
      show (_ && !(s.isectIn i).mergeEna && _) = false
      rw [merge, Bool.not_true, Bool.and_false, Bool.false_and]
    have spent : (s.isect.mstRsp (s.isectIn i) m).done = (s.isectIn i).isectDone := rfl
    rw [decided, Indirector.decided, hs, Intersector.mstHs_merging merge, answer, noSkip, spent,
      Bool.not_false, Bool.and_true]
  rw [one, one]

end Merge

/-- What one cycle adds. -/
theorem elements_concat (past : List (Obs P)) (m : Bool) :
    (elements (past ++ [(machine P).obs s i]) m).length =
      (elements past m).length + (s.emits i m).toNat := by
  rw [elements, filterMap_concat, List.length_append]
  show _ + (Option.toList (if s.emits i m then _ else none)).length = _
  cases s.emits i m <;> rfl

/-- **Nothing is lost**, in a master of any state, exactly unless the intersector decides on
an element while the output is stalled, or takes it for the end of the job; and as long as
that does not happen both masters of a merge have emitted equally many elements. -/
theorem elements_kept (P : MastersParts) :
    (∀ (s : Masters P) (i : MastersIn P) (m : Bool), Indirector.IsMaster (s.indirIn i m) →
      ((s.indir m).Taken (s.indirIn i m) (s.memReady i m) ↔
        ¬(s.indir m).Stalls (s.indirIn i m) (s.memReady i m)) ∧
      ((s.indir m).Kept (s.indirIn i m) (s.memReady i m) ↔ ¬s.Loses i m)) ∧
    ∀ start past s, (machine P).Reaches mergingKept start past s →
      (elements past false).length = (elements past true).length := by
  constructor
  · intro s i m role
    exact ⟨role.taken_iff, role.kept_iff⟩
  · intro start past s reached
    apply reached.invariant fun past _ => (elements past false).length = (elements past true).length
    · rfl
    · intro past s i _ before admitted
      obtain ⟨wired, merging, kept⟩ := admitted
      have each : ∀ m, s.emits i m = s.decided i m := by
        intro m
        exact (merging m).1.emits_eq_decided ((merging m).1.kept_iff.mpr (kept m))
      rw [elements_concat, elements_concat, before, each, each, decided_same wired merging]

/-! ## A stream of one and a stream of two -/

/-- An intersection master without an output register. -/
def masterCfg : Cfg :=
  { Cfg.affine with Indirection := true, IsectMaster := true, IndirOutSpill := false }

abbrev twoMasters : MastersParts := ⟨fun _ => masterCfg, fun _ => .ofList masterCfg, ⟨8, 2, .ofList _ false⟩⟩

/-- A master in a merge of indices of a byte, its index word at hand. -/
def atWord (bound : BitVec masterCfg.IndexWidth) (word : BitVec masterCfg.DataWidth) :
    AddrGen (.ofList masterCfg) :=
  { AddrGen.init (.ofList masterCfg) with
    config := { done := false, dims := 2, indir := true }
    regs := { JobRegs.zero masterCfg with bound := fun _ => bound, idxMerge := true }
    natitLastWordInflight := true
    indir :=
      { Indirector.init (IndirParts.ofList masterCfg) with
        idxFifo := [word]
        idxCredit := 2 } }

/-- Stream 0 is 1, stream 1 is 1 and 2. -/
def oneAndTwo : Masters twoMasters where
  ag m := if m then atWord 1 0x0201 else atWord 0 0x01
  isect := .init _

/-- The 1 passes; then master 0 is to emit a zero for the 2, its output ready or not. -/
def zeroWanted (ready : Bool) : List (MastersIn twoMasters) :=
  [⟨fun _ => { memReady := true, isectMstRsp := { ready := true } }, {}, true⟩,
    ⟨fun m =>
      { memReady := m || ready, isectMstRsp := { zero := !m, ready := true } }, {}, true⟩]

theorem elements_kept_ready :
    (elements ((machine twoMasters).trace oneAndTwo (zeroWanted true)) true).length = 2 ∧
      (elements ((machine twoMasters).trace oneAndTwo (zeroWanted true)) false).length =
        (elements ((machine twoMasters).trace oneAndTwo (zeroWanted true)) true).length := by
  refine ⟨by decide, (elements_kept twoMasters).2 oneAndTwo _ _
    ((machine twoMasters).reaches_run oneAndTwo (zeroWanted true) ⟨?_, ?_, trivial⟩)⟩
  all_goals
    refine ⟨?_, fun m => ⟨⟨rfl, rfl, ?_⟩, ?_⟩, ?_⟩
    · intro m
      cases m <;> rfl
    · cases m <;> rfl
    · cases m <;> rfl
    · intro m
      cases m <;> decide

/-- With the output of master 0 stalled its zero is lost. -/
theorem zero_lost :
    ((elements ((machine twoMasters).trace oneAndTwo (zeroWanted false)) false).length,
      (elements ((machine twoMasters).trace oneAndTwo (zeroWanted false)) true).length) = (1, 2) ∧
    (machine twoMasters).Admits (fun _ s i => s.Wired i ∧ s.Merging i) [] oneAndTwo
      (zeroWanted false) := by
  refine ⟨by decide, ⟨?_, ?_⟩, ⟨?_, ?_⟩, trivial⟩
  · intro m
    cases m <;> rfl
  · intro m
    refine ⟨⟨rfl, rfl, ?_⟩, ?_⟩ <;> cases m <;> rfl
  · intro m
    cases m <;> rfl
  · intro m
    refine ⟨⟨rfl, rfl, ?_⟩, ?_⟩ <;> cases m <;> rfl

end Masters

end SnitchCluster.Ssr
