/-
# Core.Alignment -- where the program counter may point

The program counter has six sources: the next address, a branch, a jump through the
arithmetic unit, the trap vector, and the addresses a return takes from `mepc`, `sepc`
and `dpc`.  The misalignment check looks at the next address or branch target only.  So
a branch is safe, but a jump is followed to any even address and a return to whatever
software has written (`jump_to_half_word`).

`TargetsAligned` says which targets are harmless; `aligned_next` keeps the program
counter aligned over a cycle with such targets, `pc_aligned` over a run.
-/
import Mathlib.Algebra.Group.Nat.Defs
import SnitchCluster.Core.Execute
import SnitchCluster.Theory.Clocked

namespace SnitchCluster.Core

open Theory
open Instr

/-! ## Aligned addresses -/

/-- The address of a word. -/
def aligned (a : BitVec 32) : Bool := a.extractLsb' 0 2 == 0

theorem aligned_add {a : BitVec 32} (known : aligned a = true) (b : BitVec 32) :
    aligned (a + b) = aligned b := by
  rw [aligned, beq_iff_eq] at known
  have low : ∀ x : BitVec 32, x.extractLsb' 0 2 = x.setWidth 2 := by
    intro x
    simp [BitVec.setWidth_eq_extractLsb']
  rw [aligned, aligned, low, BitVec.setWidth_add _ _ (by decide), ← low, ← low, known]
  simp

theorem aligned_eq (a : BitVec 32) : aligned a = (!a.getLsbD 0 && !a.getLsbD 1) := by
  rw [aligned, Bool.eq_iff_iff, beq_iff_eq]
  constructor
  · intro zero
    have bits : ∀ k < 2, a.getLsbD k = false := by
      intro k bound
      have bit := congrArg (fun x : BitVec 2 => x.getLsbD k) zero
      simpa [bound] using bit
    rw [bits 0 (by decide), bits 1 (by decide)]
    rfl
  · intro clear
    simp only [Bool.and_eq_true, Bool.not_eq_true'] at clear
    apply BitVec.eq_of_getLsbD_eq
    intro k bound
    have either : k = 0 ∨ k = 1 := by omega
    rcases either with rfl | rfl
    · simpa using clear.1
    · simpa using clear.2

/-- Clearing the lowest bit leaves the other one to look at. -/
theorem aligned_even (a : BitVec 32) : aligned (a &&& ~~~1) = !a.getLsbD 1 := by
  rw [aligned_eq]
  simp

theorem aligned_jimm (w : BitVec 32) : aligned (jimm w) = !(jimm w).getLsbD 1 := by
  have even : (jimm w).getLsbD 0 = false := by
    rw [jimm, BitVec.getLsbD_signExtend, BitVec.getLsbD_append]
    rfl
  rw [aligned_eq, even]
  rfl

/-! ## What the decoder asks of the program counter -/

/-- The words that set the program counter other than to the next address. -/
def redirects : NextPc → List (BitPat 32)
  | .alu => [JAL, JALR]
  | .mRet => [MRET]
  | .sRet => [SRET]
  | .dRet => [DRET]
  | _ => []

theorem systemArms_redirects : ∀ (privLvl : PrivLvl) (debug : Bool),
    ∀ arm ∈ systemArms privLvl debug, arm.2.nextPc ≠ .consec →
      ∀ q ∈ arm.1, q ∈ redirects arm.2.nextPc := by
  decide

theorem baseArms_redirects : ∀ arm ∈ baseArms, arm.2.nextPc ≠ .consec →
    ∀ q ∈ arm.1, q ∈ redirects arm.2.nextPc := by
  decide

theorem otherValues_straight : ∀ d ∈ otherValues, d.nextPc = .consec ∧ d.isBranch = false ∧
    d.leaveDebug = false := by
  decide

/-- A word that redirects the program counter is the jump or return it asks for. -/
theorem inside_redirects (C : Cfg) (privLvl : PrivLvl) (debug : Bool) (fmode : FmtMode)
    (w : BitVec 32) (redirected : (decode C privLvl debug fmode w).nextPc ≠ .consec) :
    BitPat.inside w (redirects (decode C privLvl debug fmode w).nextPc) = true := by
  rcases decode_cases C privLvl debug fmode w with ⟨arm, member, hit, taken⟩ | other
  · rw [taken] at redirected ⊢
    obtain ⟨q, among, met⟩ := List.any_eq_true.mp hit
    refine List.any_eq_true.mpr ⟨q, ?_, met⟩
    rcases List.mem_append.mp member with base | system
    · exact baseArms_redirects arm base redirected q among
    · exact systemArms_redirects _ _ arm system redirected q among
  · exact absurd (otherValues_straight _ other).1 redirected

theorem systemArms_noBranch : ∀ (privLvl : PrivLvl) (debug : Bool),
    ∀ arm ∈ systemArms privLvl debug, arm.2.isBranch = false := by
  decide

theorem baseArms_branch : ∀ arm ∈ baseArms, arm.2.isBranch = true → ∀ q ∈ arm.1, q ∈ jumps := by
  decide

/-- A branch is one of the words the misalignment check looks at. -/
theorem inside_jumps (C : Cfg) (privLvl : PrivLvl) (debug : Bool) (fmode : FmtMode)
    (w : BitVec 32) (branch : (decode C privLvl debug fmode w).isBranch = true) :
    BitPat.inside w jumps = true := by
  rcases decode_cases C privLvl debug fmode w with ⟨arm, member, hit, taken⟩ | other
  · rw [taken] at branch
    obtain ⟨q, among, met⟩ := List.any_eq_true.mp hit
    refine List.any_eq_true.mpr ⟨q, ?_, met⟩
    rcases List.mem_append.mp member with base | system
    · exact baseArms_branch arm base branch q among
    · rw [systemArms_noBranch _ _ arm system] at branch
      contradiction
  · rw [(otherValues_straight _ other).2.1] at branch
    contradiction

/-- `DRET` in debug mode: it leaves debug mode, returns through `dpc` and never waits. -/
structure Leaves (debug : Bool) (d : Dec) : Prop where
  inDebug : debug = true
  nextPc : d.nextPc = .dRet
  noFence : (d.fence || d.fenceI) = false
  noMemory : d.memory = false
  noOffload : d.accQvalid = false

instance (debug : Bool) (d : Dec) : Decidable (Leaves debug d) :=
  decidable_of_iff (debug = true ∧ d.nextPc = .dRet ∧ (d.fence || d.fenceI) = false ∧
      d.memory = false ∧ d.accQvalid = false)
    ⟨fun ⟨a, b, c, e, f⟩ => ⟨a, b, c, e, f⟩, fun ⟨a, b, c, e, f⟩ => ⟨a, b, c, e, f⟩⟩

theorem systemArms_leaves : ∀ (privLvl : PrivLvl) (debug : Bool),
    ∀ arm ∈ systemArms privLvl debug, arm.2.leaveDebug = true → Leaves debug arm.2 := by
  decide

theorem baseArms_stay : ∀ arm ∈ baseArms, arm.2.leaveDebug = false := by
  decide

theorem decode_leaves (C : Cfg) (privLvl : PrivLvl) (debug : Bool) (fmode : FmtMode)
    (w : BitVec 32) (leaves : (decode C privLvl debug fmode w).leaveDebug = true) :
    Leaves debug (decode C privLvl debug fmode w) := by
  rcases decode_cases C privLvl debug fmode w with ⟨arm, member, -, taken⟩ | other
  · rw [taken] at leaves ⊢
    rcases List.mem_append.mp member with base | system
    · rw [baseArms_stay arm base] at leaves
      contradiction
    · exact systemArms_leaves _ _ arm system leaves
  · rw [(otherValues_straight _ other).2.2] at leaves
    contradiction

namespace State

variable {C : Cfg} {P : LsuParts C} (s : State P) (i : Input C)

/-- The targets of this cycle, should its instruction be executed: a jump outside debug
mode goes to an aligned address, and a return finds one. -/
structure TargetsAligned : Prop where
  jal : s.debugQ = false → BitPat.test JAL i.instData = true →
    (jimm i.instData).getLsbD 1 = false
  jalr : s.debugQ = false → BitPat.test JALR i.instData = true →
    (s.gpr (rs1 i) + iimm i.instData).getLsbD 1 = false
  mret : s.debugQ = false → BitPat.test MRET i.instData = true → aligned s.csrs.epc.m = true
  sret : s.debugQ = false → BitPat.test SRET i.instData = true → aligned s.csrs.epc.s = true
  dret : BitPat.test DRET i.instData = true → aligned s.dpcQ = true

/-- The condition on a cycle: an instruction executed without entering debug mode keeps
the program counter aligned. -/
def staysAligned : Prop :=
  s.stall i = false → s.exception i = false → s.undisturbed i = true → s.TargetsAligned i

section Cycle

variable {s i}

/-- A jump through the arithmetic unit. -/
theorem alu_of_jal (jump : BitPat.test JAL i.instData = true) :
    s.alu i = s.pc + jimm i.instData ∧ (s.dec i).zeroLsb = false := by
  have arm : s.dec i = armOf (.jal 0 0) :=
    decode_of_base C _ _ _ (p := JAL) (d := armOf (.jal 0 0)) (by decide) jump
  refine ⟨?_, by rw [arm]; rfl⟩
  rw [alu, opa, opb, arm, BitVec.add_comm]
  exact aluResult_fn _ _ .add

theorem alu_of_jalr (jump : BitPat.test JALR i.instData = true) :
    s.alu i = s.gpr (rs1 i) + iimm i.instData ∧ (s.dec i).zeroLsb = true := by
  have arm : s.dec i = armOf (.jalr 0 0 0) :=
    decode_of_base C _ _ _ (p := JALR) (d := armOf (.jalr 0 0 0)) (by decide) jump
  refine ⟨?_, by rw [arm]; rfl⟩
  rw [alu, opa, opb, arm]
  exact aluResult_fn _ _ .add

/-- A branch to an unaligned address traps. -/
theorem aligned_consecPc (here : aligned s.pc = true) (ordinary : s.exception i = false) :
    aligned (s.consecPc i) = true := by
  cases branch : (s.dec i).isBranch with
  | false =>
    rw [consecPc_of_noBranch branch, aligned_add here]
    rfl
  | true =>
    have checked : s.instAddrMisaligned i = false := by
      simp only [exception, Bool.or_eq_false_iff] at ordinary
      tauto
    rw [instAddrMisaligned, inside_jumps C _ _ _ _ branch, Bool.true_and] at checked
    simpa [aligned] using checked

theorem inside_of_nextPc {source : NextPc} (asks : (s.dec i).nextPc = source)
    (redirected : source ≠ .consec) : BitPat.inside i.instData (redirects source) = true := by
  subst asks
  exact inside_redirects C _ _ _ _ redirected

/-- The program counter of an instruction that meets no exception. -/
theorem aligned_npc (here : aligned s.pc = true) (outside : s.debugQ = false)
    (ordinary : s.exception i = false) (moves : s.stall i = false)
    (targets : s.TargetsAligned i) : aligned (s.npc i) = true := by
  have next := npc_of_moves ordinary moves
  have plain := (s.dec_exclusive i).consec
  cases source : (s.dec i).nextPc with
  | consec =>
    rw [next, source]
    exact aligned_consecPc here ordinary
  | alu =>
    have jump : BitPat.test JAL i.instData = true ∨ BitPat.test JALR i.instData = true := by
      simpa [redirects, BitPat.inside] using inside_of_nextPc source (by decide)
    rw [next, source]
    rcases jump with jal | jalr
    · obtain ⟨target, whole⟩ := alu_of_jal (s := s) jal
      simp only [whole, Bool.false_eq_true, if_false]
      rw [target, aligned_add here, aligned_jimm, targets.jal outside jal]
      rfl
    · obtain ⟨target, whole⟩ := alu_of_jalr (s := s) jalr
      simp only [whole, if_true]
      rw [aligned_even, target, targets.jalr outside jalr]
      rfl
  | exception => exact absurd source plain
  | mRet =>
    have returns := inside_of_nextPc source (by decide)
    rw [next, source]
    exact targets.mret outside (by simpa [redirects, BitPat.inside] using returns)
  | sRet =>
    have returns := inside_of_nextPc source (by decide)
    rw [next, source]
    exact targets.sret outside (by simpa [redirects, BitPat.inside] using returns)
  | dRet =>
    have returns := inside_of_nextPc source (by decide)
    rw [next, source]
    exact targets.dret (by simpa [redirects, BitPat.inside] using returns)

theorem aligned_trapVector : aligned s.trapVector = true := by
  rw [aligned_eq, trapVector, BitVec.getLsbD_append, BitVec.getLsbD_append]
  rfl

/-- A trap goes to its vector. -/
theorem npc_of_exception (trapped : s.exception i = true) (moves : s.stall i = false) :
    s.npc i = s.trapVector := by
  rw [npc, advance_eq, moves, nextPc_eq_exception.mpr trapped]
  rfl

/-- Whoever moves without entering debug mode while outside of it was undisturbed. -/
theorem undisturbed_of_outside (outside : s.debugQ = false) (moves : s.stall i = false)
    (after : (s.next i).debugQ = false) : s.undisturbed i = true := by
  by_contra disturbed
  have requested : (debugReq i || s.dcsrQ.step) = true := by
    rw [undisturbed, outside, Bool.false_or, Bool.not_eq_true, Bool.not_eq_false'] at disturbed
    exact disturbed
  have support : C.DebugSupport = true := by
    rw [debugReq, dcsrQ] at requested
    by_contra bare
    rw [Bool.not_eq_true] at bare
    simp [bare] at requested
  have entered : s.debugNext i = true := by
    rw [debugNext]
    split
    · rename_i leaves
      have was := (decode_leaves C _ _ _ _ leaves).inDebug
      rw [outside] at was
      contradiction
    · have enters : (!s.debugQ && (debugReq i ||
          (s.dcsrQ.ebreakm && BitPat.test EBREAK i.instData) || s.dcsrQ.step)) = true := by
        rw [Bool.or_eq_true] at requested
        rcases requested with asked | stepped
        · simp [outside, asked]
        · simp [outside, stepped]
      rw [if_pos enters]
      exact validInstr_of_moves moves
  rw [debugQ, support, Bool.true_and] at after
  rw [show (s.next i).debug = s.debugNext i from rfl, entered] at after
  contradiction

/-- Debug mode is left by `DRET` only, which does not wait. -/
theorem leaves_debug (inside : s.debugQ = true) (after : (s.next i).debugQ = false) :
    (s.dec i).nextPc = .dRet ∧ s.stall i = false := by
  have support : C.DebugSupport = true := by
    rw [debugQ, Bool.and_eq_true] at inside
    exact inside.1
  rw [debugQ, support, Bool.true_and] at after
  have left : s.debugNext i = false := after
  cases leaves : (s.dec i).leaveDebug with
  | false =>
    rw [debugNext, leaves, inside] at left
    contradiction
  | true =>
    rw [debugNext, leaves, if_pos rfl, Bool.not_eq_false'] at left
    obtain ⟨-, target, fences, memory, offload⟩ := decode_leaves C _ _ _ _ leaves
    refine ⟨target, ?_⟩
    have quiet : s.accQvalid i = false := by
      rw [accQvalid, show (s.dec i).accQvalid = false from offload]
      rfl
    change ((s.dec i).fence || (s.dec i).fenceI) = false at fences
    change (s.dec i).memory = false at memory
    simp only [Bool.or_eq_false_iff] at fences
    simp only [Dec.memory, Bool.or_eq_false_iff] at memory
    simp [stall_iff left, fenceWaits, lsuWaits, caqWaits, accWaits, lsuTlbQvalid, caqEna,
      fences, memory, quiet]

/-- **One cycle keeps the program counter aligned.** -/
theorem aligned_next (halt : aligned C.dmHaltAddress = true)
    (trap : aligned C.dmExceptionAddress = true)
    (before : s.debugQ = false → aligned s.pc = true) (stays : s.staysAligned i)
    (after : (s.next i).debugQ = false) : aligned (s.next i).pc = true := by
  show aligned (s.pcD i) = true
  cases inDebug : s.debugQ with
  | false =>
    have here := before inDebug
    cases moves : s.stall i with
    | true => simpa [pcD, advance_eq, moves] using here
    | false =>
      have alone := undisturbed_of_outside inDebug moves after
      rw [pcD_of_undisturbed (by simp [inDebug]) moves alone]
      cases ordinary : s.exception i with
      | true =>
        rw [npc_of_exception ordinary moves]
        exact aligned_trapVector
      | false => exact aligned_npc here inDebug ordinary moves (stays moves ordinary alone)
  | true =>
    obtain ⟨target, moves⟩ := leaves_debug inDebug after
    have alone : s.undisturbed i = true := by simp [undisturbed, inDebug]
    cases ordinary : s.exception i with
    | true =>
      have trapped := nextPc_eq_exception.mpr ordinary
      simp only [pcD, advance_eq, moves, inDebug, trapped, Bool.not_false, Bool.not_true,
        Bool.false_and, Bool.true_and, beq_self_eq_true, if_true, if_false,
        Bool.false_eq_true]
      split
      · exact halt
      · exact trap
    | false =>
      have returns := inside_of_nextPc target (by decide)
      rw [pcD_of_undisturbed (fun _ => ordinary) moves alone, npc_of_moves ordinary moves, target]
      exact (stays moves ordinary alone).dret (by simpa [redirects, BitPat.inside] using returns)

end Cycle

/-! ## Runs -/

variable (P) in
/-- The core, nothing of it observed. -/
def pcMachine : Machine (State P) (Input C) Unit where
  obs _ _ := ()
  next s i := s.next i

/-- Every cycle keeps the program counter aligned. -/
def alignedEnv : Machine.Env (State P) (Input C) Unit := fun _ s i => s.staysAligned i

/-- **The program counter is word aligned outside debug mode**, in every run from an
aligned boot address in which no executed jump has a target with bit 1 set and no
executed return finds an unaligned address. -/
theorem pc_aligned (boot : aligned C.BootAddr = true) (halt : aligned C.dmHaltAddress = true)
    (trap : aligned C.dmExceptionAddress = true) {past : List Unit} {s : State P}
    (reached : (pcMachine P).Reaches alignedEnv (State.reset P) past s)
    (outside : s.debugQ = false) : aligned s.pc = true := by
  refine reached.invariant (fun _ s => s.debugQ = false → aligned s.pc = true) ?_ ?_ outside
  · exact fun _ => boot
  · intro past s i _ before stays after
    exact aligned_next halt trap before stays after

/-! ### A jump to a half word -/

/-- `jal x0, 2` and `jal x0, 8`. -/
def jalIn (far : Bool) : Input smallCfg where
  instData := if far then 0x0080006f else 0x0020006f

/-- The core goes where a jump goes. -/
theorem pc_aligned_far : aligned ((State.reset smallParts).next (jalIn true)).pc = true := by
  have reached : (pcMachine smallParts).Reaches alignedEnv (State.reset smallParts) [()]
      ((State.reset smallParts).next (jalIn true)) := by
    refine (pcMachine smallParts).reaches_run _ [jalIn true] ⟨fun _ _ _ => ?_, trivial⟩
    exact ⟨fun _ _ => by decide, fun _ other => absurd other (by decide),
      fun _ other => absurd other (by decide), fun _ other => absurd other (by decide),
      fun other => absurd other (by decide)⟩
  exact pc_aligned (by decide) (by decide) (by decide) reached (by decide)

/-- **A jump to the middle of a word is followed.** -/
theorem jump_to_half_word :
    ¬∀ (past : List Unit) (s : State smallParts),
      (pcMachine smallParts).Reaches (fun _ _ _ => True) (State.reset smallParts) past s →
        s.debugQ = false → aligned s.pc = true := by
  intro always
  have reached : (pcMachine smallParts).Reaches (fun _ _ _ => True) (State.reset smallParts) [()]
      ((State.reset smallParts).next (jalIn false)) :=
    (pcMachine smallParts).reaches_run _ [jalIn false] ⟨trivial, trivial⟩
  exact absurd (always _ _ reached (by decide)) (by decide)

end State

end SnitchCluster.Core
