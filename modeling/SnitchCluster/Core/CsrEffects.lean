/-
# Core.CsrEffects -- what a trapped CSR access leaves behind

A CSR access in a cycle with an exception is taken again after the trap, so the trap entry
should be all it leaves.  Most arms of the CSR block guard their write with the exception,
and the access check withdraws the others' -- but the debug registers, the barrier and the
multicast mask are written without a guard.  `noSideEffect_iff` says exactly when that shows.
-/
import SnitchCluster.Core.PrivStack

namespace SnitchCluster.Core

open Theory
open Theory.BitPat
open Instr

/-- The words of the CSR instructions. -/
def csrWords : List (BitPat 32) := [CSRRW, CSRRWI, CSRRS, CSRRSI, CSRRC, CSRRCI]

namespace State

variable {C : Cfg} {P : LsuParts C} {s : State P} {i : Input C}

/-! ## Words the block matches by themselves -/

/-- A CSR access is none of the words that are matched outside the decoder. -/
theorem csrWords_apart : ∀ p ∈ csrWords, ∀ q ∈ [EBREAK, MRET, SRET], apart p q = true := by
  decide

theorem not_system_of_csr (isCsr : inside i.instData csrWords = true) :
    ∀ q ∈ [EBREAK, MRET, SRET], q.test i.instData = false := by
  obtain ⟨p, among, met⟩ := List.any_eq_true.mp isCsr
  exact fun q system => apart_sound (csrWords_apart p among q system) met

/-! ## A cycle without the access -/

variable (s i) in
/-- The program counter and the cause that an entry into debug mode records: a request, or
the end of a single step. -/
def debugEntry : Option (BitVec 32 × BitVec 3) :=
  if s.debugQ then none
  else if debugReq i then some (s.npc i, C.dmCauseRequest)
  else if s.validInstr i && s.dcsrQ.step then some (s.npc i, C.dmCauseSingleStep)
  else none

variable (s i) in
/-- What a cycle records by itself: the flags of the FPU, the end of a barrier, and the entry
into debug mode. -/
def recorded : Csrs C :=
  { s.csrs with
    fcsr := { s.csrs.fcsr with fflags := s.csrs.fcsr.fflags ||| i.fpuStatus }
    csrStall := s.csrs.csrStall && !i.barrier
    dpc := (s.debugEntry i).elim s.csrs.dpc Prod.fst
    dcsr := { s.csrs.dcsr with cause := (s.debugEntry i).elim s.csrs.dcsr.cause Prod.snd } }

theorem csrBase_eq (noBreak : BitPat.test EBREAK i.instData = false) :
    s.csrBase i = s.recorded i := by
  simp only [csrBase, recorded, debugEntry, noBreak, Bool.and_false]
  split
  · rfl
  · simp only [Bool.false_eq_true, if_false]
    split
    · rfl
    · split <;> rfl

/-- After a CSR access only the trap entry follows. -/
theorem csrNext_of_csr (isCsr : inside i.instData csrWords = true) :
    s.csrNext i = s.trap i (s.csrWritten i) := by
  have other := not_system_of_csr isCsr
  simp [csrNext, sret, mret, other MRET (by simp), other SRET (by simp)]

/-! ## The access -/

variable (s i) in
/-- A trapped access has no side effect: the registers take the trap entry and what the cycle
records by itself, no barrier is requested, and the core is not put to wait for one. -/
structure NoSideEffect : Prop where
  registers : s.csrNext i = s.trap i (s.recorded i)
  request : s.barrierO i = false
  stall : (s.csrNext i).csrStall = true → s.csrs.csrStall = true

variable (s i) in
/-- A write no exception withdraws, and that shows: the barrier, or a changed debug register or
multicast mask. -/
def unguardedWrite : Bool :=
  s.csrEn i && s.csrPrivOk i &&
    (csrAddr i.instData == CSR_BARRIER ||
      (csrAddr i.instData == CSR_MCAST && s.alu i != s.csrs.mcast) ||
      (C.DebugSupport &&
        ((csrAddr i.instData == CSR_DCSR &&
            ((s.alu i).getLsbD 15 != s.csrs.dcsr.ebreakm ||
              (s.alu i).getLsbD 2 != s.csrs.dcsr.step)) ||
          (csrAddr i.instData == CSR_DPC && s.alu i != (s.recorded i).dpc) ||
          (csrAddr i.instData == CSR_DSCRATCH0 && s.alu i != s.csrs.dscratch))))

/-- The trap entry rewrites neither the debug registers nor the barrier and the mask. -/
theorem trap_injective {c d : Csrs C} (same : s.trap i c = s.trap i d) :
    c.dcsr = d.dcsr ∧ c.dpc = d.dpc ∧ c.dscratch = d.dscratch ∧ c.csrStall = d.csrStall ∧
      c.mcast = d.mcast := by
  have kept : ∀ c : Csrs C, (s.trap i c).dcsr = c.dcsr ∧ (s.trap i c).dpc = c.dpc ∧
      (s.trap i c).dscratch = c.dscratch ∧ (s.trap i c).csrStall = c.csrStall ∧
      (s.trap i c).mcast = c.mcast := by
    intro c
    unfold trap
    cases s.trapEntry i <;> cases s.validInstr i <;> exact ⟨rfl, rfl, rfl, rfl, rfl⟩
  have left := kept c
  rw [same] at left
  obtain ⟨dcsr, dpc, dscratch, stall, mcast⟩ := left
  obtain ⟨dcsr', dpc', dscratch', stall', mcast'⟩ := kept d
  exact ⟨dcsr.symm.trans dcsr', dpc.symm.trans dpc', dscratch.symm.trans dscratch',
    stall.symm.trans stall', mcast.symm.trans mcast'⟩

/-- With an exception the guarded arms write nothing. -/
theorem csrWrite_trapped (addr : BitVec 12) (w : BitVec 32) (c : Csrs C) :
    s.csrWrite true addr w c =
      if addr = CSR_DCSR then
        if C.DebugSupport then
          { c with dcsr := { c.dcsr with ebreakm := w.getLsbD 15, step := w.getLsbD 2 } }
        else c
      else if addr = CSR_DPC then (if C.DebugSupport then { c with dpc := w } else c)
      else if addr = CSR_DSCRATCH0 then (if C.DebugSupport then { c with dscratch := w } else c)
      else if addr = CSR_BARRIER then { c with csrStall := true }
      else if addr = CSR_MCAST then { c with mcast := w }
      else c := by
  simp only [csrWrite, if_true]

/-- An access that writes nothing new leaves the registers as the cycle records them. -/
theorem csrWrite_silent (access : (s.csrEn i && s.csrPrivOk i) = true)
    (silent : s.unguardedWrite i = false) :
    s.csrWrite true (csrAddr i.instData) (s.alu i) (s.recorded i) = s.recorded i := by
  simp only [unguardedWrite, access, Bool.true_and, Bool.or_eq_false_iff, Bool.and_eq_false_imp,
    beq_eq_false_iff_ne, beq_iff_eq, bne_eq_false_iff_eq] at silent
  obtain ⟨⟨noBarrier, mcast⟩, debug⟩ := silent
  rw [csrWrite_trapped]
  split
  · rename_i addr
    split
    · rename_i support
      obtain ⟨ebreakm, step⟩ := (debug support).1.1 addr
      rw [ebreakm, step]
      rfl
    · rfl
  split
  · rename_i addr
    split
    · rename_i support
      rw [(debug support).1.2 addr]
    · rfl
  split
  · rename_i addr
    split
    · rename_i support
      rw [(debug support).2 addr]
      rfl
    · rfl
  split
  · rename_i addr
    rw [mcast addr]
    rfl
  · rfl

/-- A write that shows is seen through the trap entry. -/
theorem unguardedWrite_shows (quiet : NoSideEffect s i) (written : s.csrNext i =
      s.trap i (s.csrWrite true (csrAddr i.instData) (s.alu i) (s.recorded i))) :
    s.unguardedWrite i = false := by
  obtain ⟨dcsr, dpc, dscratch, stall, mcast⟩ := trap_injective (written.symm.trans quiet.registers)
  have request := quiet.request
  cases access : s.csrEn i && s.csrPrivOk i with
  | false => rw [unguardedWrite, access, Bool.false_and]
  | true =>
    rw [barrierO, access, Bool.true_and] at request
    rw [csrWrite_trapped] at dcsr dpc dscratch mcast
    have apart : CSR_DPC ≠ CSR_DCSR ∧ CSR_DSCRATCH0 ≠ CSR_DCSR ∧ CSR_DSCRATCH0 ≠ CSR_DPC ∧
        CSR_MCAST ≠ CSR_DCSR ∧ CSR_MCAST ≠ CSR_DPC ∧ CSR_MCAST ≠ CSR_DSCRATCH0 ∧
        CSR_MCAST ≠ CSR_BARRIER := by decide
    simp only [unguardedWrite, access, request, Bool.true_and, Bool.false_or,
      Bool.or_eq_false_iff, Bool.and_eq_false_imp, beq_iff_eq, bne_eq_false_iff_eq]
    refine ⟨fun addr => ?_, fun support => ⟨⟨fun addr => ?_, fun addr => ?_⟩, fun addr => ?_⟩⟩
    · simpa [addr, apart, recorded] using mcast
    · rw [if_pos addr, if_pos support, Dcsr.mk.injEq] at dcsr
      exact ⟨dcsr.1, dcsr.2.1⟩
    · simpa [addr, support, apart] using dpc
    · simpa [addr, support, apart, recorded] using dscratch

/-- The trap entry puts nobody to wait. -/
theorem csrStall_of_recorded (next : s.csrNext i = s.trap i (s.recorded i))
    (stalled : (s.csrNext i).csrStall = true) : s.csrs.csrStall = true := by
  have kept : (s.trap i (s.recorded i)).csrStall = (s.recorded i).csrStall := by
    unfold trap
    cases s.trapEntry i <;> cases s.validInstr i <;> rfl
  rw [next, kept, recorded, Bool.and_eq_true] at stalled
  exact stalled.1

/-- **A trapped CSR access has no side effect exactly where no unguarded write shows.** -/
theorem noSideEffect_iff (isCsr : inside i.instData csrWords = true)
    (trapped : s.exception i = true) : NoSideEffect s i ↔ s.unguardedWrite i = false := by
  have written : s.csrWritten i = if s.csrEn i && s.csrPrivOk i then
      s.csrWrite true (csrAddr i.instData) (s.alu i) (s.recorded i) else s.recorded i := by
    rw [csrWritten, csrBase_eq (not_system_of_csr isCsr EBREAK (by simp)), trapped]
  have next := csrNext_of_csr (s := s) isCsr
  rw [written] at next
  cases access : s.csrEn i && s.csrPrivOk i with
  | false =>
    rw [access, if_neg Bool.false_ne_true] at next
    have silent : s.unguardedWrite i = false := by rw [unguardedWrite, access, Bool.false_and]
    exact ⟨fun _ => silent, fun _ => ⟨next, by rw [barrierO, access, Bool.false_and],
      csrStall_of_recorded next⟩⟩
  | true =>
    rw [access, if_pos rfl] at next
    refine ⟨fun quiet => unguardedWrite_shows quiet next, fun silent => ?_⟩
    rw [csrWrite_silent access silent] at next
    refine ⟨next, ?_, csrStall_of_recorded next⟩
    simp only [unguardedWrite, access, Bool.true_and, Bool.or_eq_false_iff] at silent
    rw [barrierO, access, Bool.true_and, silent.1.1]

/-- A core whose timer interrupt is enabled, and a cycle in which the timer fires. -/
def timed : State smallParts :=
  { State.reset smallParts with csrs := { tvec := 0x800, ie := true, tie := ⟨true, false⟩ } }

def tick (word : BitVec 32) : Input smallCfg := { irq := { mtip := true }, instData := word }

/-- The interrupt withdraws a write of `mscratch`. -/
theorem noSideEffect_mscratch : NoSideEffect timed (tick 0x3402d073) :=
  (noSideEffect_iff (by decide) (by decide)).mpr (by decide)

/-- **A barrier entered while the interrupt is taken.**  The core goes to the handler and waits
there for the barrier it has requested, and will request again after the handler's return. -/
theorem barrier_not_withdrawn :
    inside (tick 0x7c202073).instData csrWords = true ∧
      timed.exception (tick 0x7c202073) = true ∧ timed.barrierO (tick 0x7c202073) = true ∧
      (timed.next (tick 0x7c202073)).csrs.csrStall = true ∧
      (timed.next (tick 0x7c202073)).pc = timed.trapVector ∧
      (timed.next (tick 0x7c202073)).csrs.epc.m = timed.pc ∧
      ¬NoSideEffect timed (tick 0x7c202073) := by
  refine ⟨by decide, by decide, by decide, by decide, by decide, by decide, fun quiet => ?_⟩
  exact absurd quiet.request (by decide)

end State

end SnitchCluster.Core
