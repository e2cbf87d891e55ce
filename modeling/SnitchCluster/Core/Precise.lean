/-
# Core.Precise -- exceptions against the data port

An exception withdraws the register write and the offload of an instruction, but
not the request to the load/store unit: `lsu_tlb_qvalid` is gated by alignment
alone.  Since an interrupted or faulting access is executed again after the
handler, what counts is when the trapped instruction already raises its request.
-/
import SnitchCluster.Core.Pipeline

namespace SnitchCluster.Core

open Theory
open Instr

namespace State

variable {C : Cfg} {P : LsuParts C} {s : State P} {i : Input C}

variable (s i) in
/-- The unit passes the request of the cycle on: no offloaded access collides and
there is room to remember it. -/
def lsuAccepts : Bool :=
  (!C.FP_EN || s.lsu.caqPass (s.lsuReq i)) && s.lsu.room (s.lsuReq i)

/-- A request on the data port is a translated request the unit accepts. -/
theorem dataQvalid_eq :
    s.dataQvalid i = (s.lsuTlbQvalid i && s.transReady i && s.lsuAccepts i) := by
  simp only [dataQvalid, lsuAccepts, LsuState.qValid, LsuState.postcaqQvalid, LsuState.room]
  cases C.FP_EN with
  | false =>
    simp only [Bool.not_false, Bool.true_or, Bool.true_and, Bool.false_eq_true, if_false]
    rw [Bool.and_assoc]
    rfl
  | true =>
    simp only [Bool.not_true, Bool.false_or, if_true, Bool.and_assoc]
    rw [Bool.and_left_comm]
    simp only [lsuReq, Bool.and_assoc]

variable (s i) in
/-- A trapped instruction raises no request on the data port. -/
def Precise : Prop := s.validInstr i = true → s.exception i = true → s.dataQvalid i = false

variable (s i) in
/-- An aligned integer access that is interrupted or faults on a page, while its
translation hits and the unit accepts it. -/
def requestEscapes : Bool :=
  s.validInstr i && ((s.dec i).isLoad || (s.dec i).isStore) && !s.lsMisaligned i &&
    (s.interrupt i || (s.dtlbPageFault i && s.dtlbTransValid i) ||
      (s.itlbPageFault i && s.itlbTransValid)) &&
    (s.transReady i && s.lsuAccepts i)

/-- **A trapped instruction raises no request exactly when it is no accepted
access with an interrupt or a page fault.** -/
theorem precise_iff : Precise s i ↔ s.requestEscapes i = false := by
  rw [Precise, dataQvalid_eq, requestEscapes, lsuTlbQvalid]
  cases access : (s.dec i).isLoad || (s.dec i).isStore with
  | false => simp
  | true =>
    have memory := memory_of_access access
    rw [exception_of_memory memory, misaligned_of_memory memory]
    cases s.lsMisaligned i with
    | true => simp
    | false =>
      cases s.validInstr i <;> simp [Bool.or_assoc]

/-! ### A store performed twice -/

/-- The external interrupt is enabled, in machine mode. -/
def interruptible : State smallParts :=
  { State.reset smallParts with csrs := { ie := true, eie := ⟨true, false⟩, tvec := 0x800 } }

/-- `sw x0, 0(x0)`, interrupted or not. -/
def storeIn (irq : Bool) : Input smallCfg where
  instData := 0x00002023
  irq := { meip := irq }

/-- The handler's MRET, while the memory answers the store. -/
def mretIn : Input smallCfg where
  instData := 0x30200073
  dataRsp := ⟨true, true, 0⟩

/-- **An interrupted store is performed twice.**  It raises its request in the
cycle it is trapped in, and again when the handler has returned to it. -/
theorem store_twice :
    ¬Precise interruptible (storeIn true) ∧
      (let s₁ := interruptible.next (storeIn true)
       let s₂ := s₁.next mretIn
       interruptible.dataQvalid (storeIn true) = true ∧ s₁.pc = interruptible.trapVector ∧
         s₂.pc = interruptible.pc ∧ s₂.dataQvalid (storeIn false) = true) := by
  refine ⟨fun precise => ?_, by decide⟩
  have silent := precise (by decide) (by decide)
  exact absurd silent (by decide)

end State

end SnitchCluster.Core
