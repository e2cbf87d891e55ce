/-
# Trace.Sequencer -- the trace tool's model of the FREP sequencer

`Sequencer` of the trace annotation: instructions offloaded to the floating-point
subsystem are pushed in program order, and every issue the subsystem traces asks
`emulate` which of them it was.  There is no recursion over loops.  One read pointer walks
the queue of instructions, one index tells the active loop, and each loop counts its
iterations and, while every loop inside is in its last iteration, its instructions.

An access beyond a list and a loop that was never decoded raise an exception, which is
`none` here.
-/

namespace SnitchCluster.Trace

/-- An instruction pushed to the sequencer. -/
structure Insn where
  pc : String
  sec : Nat
  isFrep : Bool
  deriving DecidableEq, Repr

/-- What the trace tells of an FREP. -/
structure Frep where
  maxIter : Nat
  maxInst : Nat
  stgMax : Nat
  stgMask : Nat
  deriving DecidableEq, Repr

/-- The configuration of a loop; `frep` is absent until it is decoded. -/
structure LoopCfg where
  pc : String
  iterIdx : Nat := 0
  instIdx : Nat := 0
  basePtr : Nat := 0
  frep : Option Frep := none
  deriving DecidableEq, Repr

structure Sequencer where
  /-- The active loop, if any. -/
  loopIdx : Option Nat := none
  loopCfg : List LoopCfg := []
  nestDepth : Nat := 0
  insns : List Insn := []
  currSec : Nat := 0
  rdPtr : Nat := 0
  deriving DecidableEq, Repr

/-- `loop_status`. -/
structure LoopStatus where
  pc : String
  iterIdx : Nat
  instIdx : Nat
  deriving DecidableEq, Repr

/-- What `emulate` returns. -/
structure Issue where
  pc : String
  sec : Nat
  status : Option LoopStatus
  deriving DecidableEq, Repr

namespace LoopCfg

variable (c : LoopCfg)

/-- `last_iter`. -/
def lastIter : Option Bool := c.frep.map fun f => c.iterIdx == f.maxIter

/-- `last_inst`. -/
def lastInst : Option Bool := c.frep.map fun f => c.instIdx == f.maxInst

/-- `loop_cfg[i]['inst_idx'] += 1`. -/
def bump : LoopCfg := { c with instIdx := c.instIdx + 1 }

/-- The next iteration begins. -/
def again : LoopCfg := { c with instIdx := 0, iterIdx := c.iterIdx + 1 }

/-- The loop is left. -/
def reset : LoopCfg := { c with instIdx := 0, iterIdx := 0 }

end LoopCfg

namespace Sequencer

variable (s : Sequencer)

/-- `push_insn`. -/
def pushInsn (insn : Insn) : Sequencer :=
  { s with
    insns := s.insns ++ [insn]
    loopCfg := if insn.isFrep then s.loopCfg ++ [{ pc := insn.pc }] else s.loopCfg }

/-- `bin`. -/
def bin (n : Nat) : String := "0b" ++ String.ofList (Nat.toDigits 2 n)

/-- `decode_frep`: the configuration of the last loop pushed, and its annotation. -/
def decodeFrep (frep : Frep) : Option ((String × String × String) × Sequencer) := do
  let c ← s.loopCfg.getLast?
  let staggered := if frep.stgMask ≠ 0 then
    ", " ++ bin frep.stgMask ++ ", " ++ toString (frep.stgMax + 1) else ""
  let insn := "frep    " ++ toString (frep.maxIter + 1) ++ ", " ++ toString (frep.maxInst + 1) ++
    staggered
  let annot := toString ((frep.maxInst + 1) * (frep.maxIter + 1)) ++ " issues"
  some ((c.pc, insn, annot),
    { s with loopCfg := s.loopCfg.dropLast ++ [{ c with frep := some frep }] })

/-- `loop_idx + 1`. -/
def succIdx : Option Nat → Nat
  | none => 0
  | some k => k + 1

/-- The FREPs at the read pointer are popped, and their loops entered; the list is what is
left of the queue from the read pointer on. -/
def enter : List Insn → Sequencer → Option Sequencer
  | [], s => if s.insns.isEmpty then some s else none
  | insn :: queue, s =>
    if insn.isFrep then
      if succIdx s.loopIdx < s.loopCfg.length then
        enter queue { s with
          loopIdx := some (succIdx s.loopIdx)
          nestDepth := s.nestDepth + 1
          insns := s.insns.eraseIdx s.rdPtr
          loopCfg := s.loopCfg.modify (succIdx s.loopIdx) fun c =>
            { c with basePtr := s.rdPtr } }
      else none
    else some s

/-- From loop `i` outwards: the instruction index of the next outer loop is incremented as
long as a loop is in its last iteration. -/
def propagate : Nat → List LoopCfg → Option (List LoopCfg)
  | 0, cfg => some cfg
  | i + 1, cfg => do
    let c ← cfg[i + 1]?
    if ← c.lastIter then propagate i (cfg.modify i LoopCfg.bump) else some cfg

/-- Loop `k` advances to its following instruction. -/
def advance (k : Nat) : Option Sequencer := do
  let cfg ← propagate k (s.loopCfg.modify k LoopCfg.bump)
  some { s with loopCfg := cfg, rdPtr := s.rdPtr + 1 }

/-- The loops after the active one whose bodies start at the read pointer become active in
turn. -/
def descend (rdPtr : Nat) : List LoopCfg → Nat → Nat
  | [], k => k
  | c :: cfg, k => if c.basePtr = rdPtr then descend rdPtr cfg (k + 1) else k

/-- From the loop below `n` outwards: loops at their last instruction in their last
iteration are left. -/
def unwind : Nat → List LoopCfg → Option (Option Nat × List LoopCfg)
  | 0, cfg => some (none, cfg)
  | n + 1, cfg => do
    let c ← cfg[n]?
    if (← c.lastIter) && (← c.lastInst) then unwind n (cfg.modify n LoopCfg.reset)
    else some (some n, cfg)

/-- The read pointer goes back to the first instruction of loop `k`. -/
def restart (k : Nat) : Option Sequencer := do
  let c ← s.loopCfg[k]?
  some { s with loopCfg := s.loopCfg.modify k LoopCfg.again, rdPtr := c.basePtr }

/-- All loops are finished: the nest is deleted. -/
def finish : Option Sequencer := do
  let c ← s.loopCfg[0]?
  let f ← c.frep
  some { s with
    loopIdx := none
    insns := s.insns.drop (f.maxInst + 1)
    loopCfg := s.loopCfg.drop s.nestDepth
    nestDepth := 0
    rdPtr := 0 }

/-- The last iteration of loop `k` is finished. -/
def leave (k : Nat) : Option Sequencer := do
  let (j, cfg) ← unwind k (s.loopCfg.modify k LoopCfg.reset)
  let s := { s with loopIdx := j, loopCfg := cfg }
  match j with
  | none => s.finish
  | some j =>
    let c ← s.loopCfg[j]?
    if !(← c.lastInst) then s.advance j else s.restart j

/-- The active loop `k` issued its last instruction. -/
def wrap (k : Nat) : Option Sequencer := do
  let c ← s.loopCfg[k]?
  if !(← c.lastIter) then s.restart k else s.leave k

/-- The state after an instruction of the active loop `k` is issued. -/
def issued (k : Nat) : Option Sequencer := do
  let c ← s.loopCfg[k]?
  if !(← c.lastInst) then
    (s.advance k).map fun s =>
      { s with loopIdx := some (descend s.rdPtr (s.loopCfg.drop (k + 1)) k) }
  else s.wrap k

/-- The start of `emulate`: from here on the instruction at the read pointer is no FREP. -/
def entering : Option Sequencer := enter (s.insns.drop s.rdPtr) s

/-- The rest of `emulate`. -/
def issue : Option (Issue × Sequencer) := do
  let insn ← s.insns[s.rdPtr]?
  match s.loopIdx with
  | none => some (⟨insn.pc, insn.sec, none⟩, { s with insns := s.insns.eraseIdx s.rdPtr })
  | some k =>
    let c ← s.loopCfg[k]?
    let after ← s.issued k
    some (⟨insn.pc, insn.sec, some ⟨c.pc, c.iterIdx, c.instIdx⟩⟩, after)

/-- `emulate`. -/
def emulate : Option (Issue × Sequencer) := do
  let s ← s.entering
  s.issue

/-- `terminate`: whether instructions or loops were left, with the warnings. -/
def terminate : Bool × List String :=
  let nest := ", ".intercalate (s.loopCfg.map LoopCfg.pc)
  let loops := if s.loopCfg.isEmpty then [] else
    ["Not all FPSS instructions from loop nest (" ++ nest ++ ") were issued."]
  let unseq := if s.insns.isEmpty then [] else
    [toString s.insns.length ++ " unsequenced FPSS instructions were not issued."]
  (!s.loopCfg.isEmpty || !s.insns.isEmpty, loops ++ unseq)

end Sequencer

end SnitchCluster.Trace
