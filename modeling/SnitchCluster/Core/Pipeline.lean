/-
# Core.Pipeline -- when the core stalls, and what an exception withdraws

The facts about one cycle that every argument about the core starts from.  A
valid instruction excludes sleep and barriers; what can still stall it is one of
four waits (`stall_iff`), and which of them an instruction can meet follows from
its decoder arm alone (`decode_exclusive`).
-/
import SnitchCluster.Core.Step

namespace SnitchCluster.Core

open Theory
open Instr

namespace State

variable {C : Cfg} {P : LsuParts C} {s : State P} {i : Input C}

variable (s i) in
theorem dec_exclusive : (s.dec i).Exclusive C.FP_EN := decode_exclusive ..

/-! ## The four waits -/

variable (s i) in
/-- A fence waits for outstanding accesses, or for the instruction cache. -/
def fenceWaits : Bool :=
  ((s.dec i).fence && !(s.lsu.empty && s.lsu.caqEmpty)) ||
    ((s.dec i).fenceI && !i.flushIReady)

variable (s i) in
/-- An aligned integer access waits for the load/store unit or its translation. -/
def lsuWaits : Bool := s.lsuTlbQvalid i && !(s.lsuQready i && s.transReady i)

variable (s i) in
/-- A floating-point access waits for room in the address queue. -/
def caqWaits : Bool := s.caqEna i && !s.caqQready i

variable (s i) in
/-- An offloaded instruction waits for the accelerator. -/
def accWaits : Bool := s.accQvalid i && !i.accQready

/-- **A valid instruction stalls exactly in one of the four waits.** -/
theorem stall_iff (valid : s.validInstr i = true) :
    s.stall i = (s.fenceWaits i || s.lsuWaits i || s.caqWaits i || s.accWaits i) := by
  simp only [stall, nonaccStall, accStall, lsuStall, lsuTlbQready, fenceStall, flushIValid,
    fenceWaits, lsuWaits, caqWaits, accWaits, valid, Bool.and_true, Bool.not_true,
    Bool.false_or]
  ac_rfl

theorem stall_of_not_valid (idle : s.validInstr i = false) : s.stall i = true := by
  simp [stall, nonaccStall, idle]

theorem instValid_of_validInstr (valid : s.validInstr i = true) : s.instValid = true := by
  simp only [validInstr, Bool.and_eq_true] at valid
  exact valid.1.1.1.2

/-- Whoever is not stalled moves on: a valid instruction excludes sleep. -/
theorem advance_eq : s.advance i = !s.stall i := by
  cases valid : s.validInstr i with
  | false => simp [advance, stall_of_not_valid valid]
  | true =>
    have awake := instValid_of_validInstr valid
    simp only [instValid, Bool.and_eq_true] at awake
    simp [advance, awake]

/-! ## What an exception withdraws -/

theorem nextPc_eq_exception : s.nextPc i = .exception ↔ s.exception i = true := by
  have ordinary := (s.dec_exclusive i).consec
  cases trapped : s.exception i with
  | true => simp [nextPc, trapped]
  | false => simpa [nextPc, trapped] using ordinary

theorem accQvalid_of_exception (trapped : s.exception i = true) : s.accQvalid i = false := by
  simp [accQvalid, trapped]

theorem csrEn_of_not_valid (idle : s.validInstr i = false) : s.csrEn i = false := by
  simp [csrEn, idle]

/-- A trapped instruction never waits for the accelerator. -/
theorem stall_of_exception (valid : s.validInstr i = true) (trapped : s.exception i = true) :
    s.stall i = (s.fenceWaits i || s.lsuWaits i || s.caqWaits i) := by
  rw [stall_iff valid, accWaits, accQvalid_of_exception trapped]
  simp

/-! ## Memory accesses -/

/-- A memory access is not a jump. -/
theorem instAddrMisaligned_of_memory (access : (s.dec i).memory = true) :
    s.instAddrMisaligned i = false := by
  cases isJump : BitPat.inside i.instData jumps with
  | false => simp [instAddrMisaligned, isJump]
  | true =>
    have quiet : (s.dec i).memory = false := decode_jump _ _ _ _ _ isJump
    rw [access] at quiet
    contradiction

/-- A memory access traps for an interrupt, its address, or a page fault. -/
theorem exception_of_memory (access : (s.dec i).memory = true) : s.exception i =
    (s.interrupt i || (s.ldAddrMisaligned i || s.stAddrMisaligned i) ||
      (s.dtlbPageFault i && s.dtlbTransValid i) || (s.itlbPageFault i && s.itlbTransValid)) := by
  obtain ⟨legal, noEcall, noEbreak, noCsr⟩ := (s.dec_exclusive i).silent (by simp [access])
  have noIllegalCsr : s.illegalCsr i = false := by simp [illegalCsr, csrEn, noCsr]
  simp only [exception, legal, noEcall, noEbreak, noIllegalCsr,
    instAddrMisaligned_of_memory access, Bool.false_or, Bool.or_false]
  ac_rfl

/-- For a memory access the two address checks are one. -/
theorem misaligned_of_memory (access : (s.dec i).memory = true) :
    (s.ldAddrMisaligned i || s.stAddrMisaligned i) = s.lsMisaligned i := by
  rw [ldAddrMisaligned, stAddrMisaligned, ← Bool.and_or_distrib_left]
  have either : ((s.dec i).isLoad || (s.dec i).isFpLoad ||
      ((s.dec i).isStore || (s.dec i).isFpStore)) = true := by
    rw [← access, Dec.memory]
    ac_rfl
  rw [either, Bool.and_true]

theorem memory_of_access (access : ((s.dec i).isLoad || (s.dec i).isStore) = true) :
    (s.dec i).memory = true := by
  simp only [Dec.memory, access, Bool.true_or]

theorem memory_of_caqEna (access : s.caqEna i = true) : (s.dec i).memory = true := by
  rw [caqEna] at access
  rw [Dec.memory, Bool.or_assoc, access, Bool.or_true]

/-! ## Waits by arm -/

theorem lsuTlbQvalid_access (request : s.lsuTlbQvalid i = true) :
    ((s.dec i).isLoad || (s.dec i).isStore) = true := by
  simp only [lsuTlbQvalid, Bool.and_eq_true] at request
  exact request.1.2

end State

end SnitchCluster.Core
