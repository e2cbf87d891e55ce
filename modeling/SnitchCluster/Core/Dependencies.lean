/-
# Core.Dependencies -- what an instruction waits for, and what it uses

The core holds an instruction back while the scoreboard marks a register it names.  Which
fields of the word are registers is said by the operand selections and by `uses_rd`; the
latter is derived from `write_rd` once, before the case statement, and no arm that clears
`write_rd` clears it too.  `stallsOnUsed_iff` says when the core waits only for registers the
instruction uses: never through a destination field that is an immediate, a register of
another file or nothing, and never through a second source that is part of the opcode.
-/
import SnitchCluster.Core.Scoreboard

namespace SnitchCluster.Core

open Theory
open Theory.BitPat
open Instr

/-- Operations on one register, whose second source field is part of the opcode. -/
def unaryWords : List (BitPat 32) :=
  [CLZ, CTZ, PCNT, SEXT_B, SEXT_H, CRC32_B, CRC32_H, CRC32_W, CRC32C_B, CRC32C_H, CRC32C_W]

namespace State

variable {C : Cfg} {P : LsuParts C} (s : State P) (i : Input C)

/-! ## Registers waited for, registers used -/

/-- The core waits while the scoreboard marks the register. -/
def WaitsFor (r : BitVec C.RegWidth) : Prop :=
  ((s.dec i).opaSelect = .reg ∧ r = rs1 i) ∨
    (((s.dec i).opbSelect = .reg ∨ (s.dec i).opbSelect = .sImmediate) ∧ r = rs2 i) ∨
    ((s.dec i).usesRd = true ∧ r = rd i)

/-- The destination field of a word that writes no integer register: of an illegal word, a
fence, a branch, a store, a return, or an offload nobody answers. -/
def idleDestination : Bool :=
  (s.dec i).illegalInst || (s.dec i).fenceI ||
    !((s.dec i).writeRd || (s.dec i).isLoad || (s.dec i).accRegisterRd)

/-- The instruction reads the register, or writes it now or when its result comes. -/
def Uses (r : BitVec C.RegWidth) : Prop :=
  ((s.dec i).opaSelect = .reg ∧ r = rs1 i) ∨
    (((s.dec i).opbSelect = .reg ∨ (s.dec i).opbSelect = .sImmediate) ∧
      inside i.instData unaryWords = false ∧ r = rs2 i) ∨
    ((s.dec i).usesRd = true ∧ s.idleDestination i = false ∧ r = rd i)

instance (r : BitVec C.RegWidth) : Decidable (s.Uses i r) :=
  inferInstanceAs (Decidable (_ ∨ _ ∨ _))

/-- The state with another scoreboard. -/
def withSb (sb : BitVec C.RegWidth → Bool) : State P := { s with sb := sb }

/-- The core stalls only on registers the instruction uses: two scoreboards that agree on them,
and on register 0, which is never marked, hold it back alike. -/
def StallsOnUsed : Prop :=
  ∀ sb : BitVec C.RegWidth → Bool, (∀ r, r = 0 ∨ s.Uses i r → sb r = s.sb r) →
    (s.withSb sb).validInstr i = s.validInstr i ∧ (s.withSb sb).stall i = s.stall i

/-- A register the core waits for in vain: the destination field of a word without one, or the
second source field of an operation on one register. -/
def VainWait (r : BitVec C.RegWidth) : Prop :=
  r ≠ 0 ∧ ¬s.Uses i r ∧
    (((s.dec i).usesRd = true ∧ s.idleDestination i = true ∧ r = rd i) ∨
      (((s.dec i).opbSelect = .reg ∨ (s.dec i).opbSelect = .sImmediate) ∧
        inside i.instData unaryWords = true ∧ r = rs2 i))

/-- Nothing else holds the instruction back: it is there and translated, and the registers it
uses are free. -/
def ReadyBut : Prop :=
  i.instReady = true ∧ s.instValid = true ∧
    ((s.itlbValid && s.itlbReady) || !s.transActive) = true ∧
    ∀ r, r = 0 ∨ s.Uses i r → s.WaitsFor i r → s.sb r = false

/-! ## The wait -/

variable {s i}

theorem opaReady_iff : s.opaReady i = true ↔
    ((s.dec i).opaSelect = .reg → s.sb (rs1 i) = false) := by
  simp only [opaReady, Bool.or_eq_true, bne_iff_ne, Bool.not_eq_true']
  exact imp_iff_not_or.symm

theorem opbReady_iff : s.opbReady i = true ↔
    ((s.dec i).opbSelect = .reg ∨ (s.dec i).opbSelect = .sImmediate → s.sb (rs2 i) = false) := by
  simp only [opbReady, Bool.or_eq_true, Bool.and_eq_true, bne_iff_ne, Bool.not_eq_true']
  rw [imp_iff_not_or, not_or]

theorem dstReady_iff : s.dstReady i = true ↔ ((s.dec i).usesRd = true → s.sb (rd i) = false) := by
  rw [dstReady]
  cases (s.dec i).usesRd <;> simp

theorem operands_iff : (s.opaReady i = true ∧ s.opbReady i = true ∧ s.dstReady i = true) ↔
    ∀ r, s.WaitsFor i r → s.sb r = false := by
  rw [opaReady_iff, opbReady_iff, dstReady_iff]
  constructor
  · rintro ⟨opa, opb, dst⟩ r (⟨select, rfl⟩ | ⟨select, rfl⟩ | ⟨uses, rfl⟩)
    · exact opa select
    · exact opb select
    · exact dst uses
  · intro free
    exact ⟨fun select => free _ (.inl ⟨select, rfl⟩),
      fun select => free _ (.inr (.inl ⟨select, rfl⟩)),
      fun uses => free _ (.inr (.inr ⟨uses, rfl⟩))⟩

theorem validInstr_iff : s.validInstr i = true ↔ i.instReady = true ∧ s.instValid = true ∧
    ((s.itlbValid && s.itlbReady) || !s.transActive) = true ∧
      ∀ r, s.WaitsFor i r → s.sb r = false := by
  rw [← operands_iff, validInstr, Bool.and_eq_true, Bool.and_eq_true, Bool.and_eq_true,
    Bool.and_eq_true, Bool.and_eq_true]
  constructor
  · rintro ⟨⟨⟨⟨word, awake⟩, opa, opb⟩, dst⟩, translated⟩
    exact ⟨word, awake, translated, opa, opb, dst⟩
  · rintro ⟨word, awake, translated, opa, opb, dst⟩
    exact ⟨⟨⟨⟨word, awake⟩, opa, opb⟩, dst⟩, translated⟩

section WithSb

variable {sb : BitVec C.RegWidth → Bool} (same : (s.withSb sb).validInstr i = s.validInstr i)

include same

theorem csrEn_withSb : (s.withSb sb).csrEn i = s.csrEn i :=
  congrArg ((s.dec i).csrEn && ·) same

theorem alu_withSb : (s.withSb sb).alu i = s.alu i := by
  have value : (s.withSb sb).csrRvalue i = s.csrRvalue i :=
    congrArg (fun en => if en && s.csrPrivOk i then s.csrRead i (csrAddr i.instData) else 0)
      (csrEn_withSb same)
  have opb : (s.withSb sb).opb i = s.opb i := by
    have select : (s.withSb sb).dec i = s.dec i := rfl
    rw [State.opb, State.opb, value, select]
    rfl
  exact congrArg (aluResult (s.dec i).aluOp (s.opa i)) opb

theorem misaligned_withSb : (s.withSb sb).lsMisaligned i = s.lsMisaligned i := by
  rw [lsMisaligned, lsMisaligned, alu_withSb same]
  rfl

theorem lsuTlbQvalid_withSb : (s.withSb sb).lsuTlbQvalid i = s.lsuTlbQvalid i := by
  rw [lsuTlbQvalid, lsuTlbQvalid, ldAddrMisaligned, stAddrMisaligned, ldAddrMisaligned,
    stAddrMisaligned, misaligned_withSb same, same]
  rfl

theorem transReady_withSb : (s.withSb sb).transReady i = s.transReady i := by
  rw [transReady, transReady, dtlbReady, dtlbReady, dtlbVa, dtlbVa, alu_withSb same]
  rfl

theorem dtlbPort_withSb : (s.withSb sb).dtlbPort i = s.dtlbPort i := by
  rw [dtlbPort, dtlbPort, tlbFlush, tlbFlush, dtlbValid, dtlbValid, dtlbVa, dtlbVa,
    lsuTlbQvalid_withSb same, alu_withSb same, same]
  rfl

theorem itlbPort_withSb : (s.withSb sb).itlbPort i = s.itlbPort i := by
  rw [itlbPort, itlbPort, tlbFlush, tlbFlush, same]
  rfl

theorem exception_withSb : (s.withSb sb).exception i = s.exception i := by
  have jump : (s.withSb sb).instAddrMisaligned i = s.instAddrMisaligned i := by
    rw [instAddrMisaligned, instAddrMisaligned, consecPc, consecPc, alu_withSb same]
    rfl
  have csr : (s.withSb sb).illegalCsr i = s.illegalCsr i := by
    rw [illegalCsr, illegalCsr, csrEn_withSb same]
    rfl
  have data : ((s.withSb sb).dtlbPageFault i && (s.withSb sb).dtlbTransValid i) =
      (s.dtlbPageFault i && s.dtlbTransValid i) := by
    rw [dtlbPageFault, dtlbPageFault, dtlbTransValid, dtlbTransValid, dtlbValid, dtlbValid,
      dtlbReady, dtlbReady, dtlbVa, dtlbVa, dtlbPort_withSb same, lsuTlbQvalid_withSb same,
      alu_withSb same]
    rfl
  have fetch : (s.withSb sb).itlbPageFault i = s.itlbPageFault i := by
    rw [itlbPageFault, itlbPageFault, itlbPort_withSb same]
    rfl
  rw [exception, exception, jump, csr, data, fetch, ldAddrMisaligned, stAddrMisaligned,
    ldAddrMisaligned, stAddrMisaligned, misaligned_withSb same]
  rfl

theorem lsuReq_withSb : (s.withSb sb).lsuReq i = s.lsuReq i := by
  rw [lsuReq, lsuReq, lsPaddr, lsPaddr, lsPpn, lsPpn, dtlbVa, dtlbVa, lsuTlbQvalid_withSb same,
    transReady_withSb same, alu_withSb same]
  rfl

/-- The scoreboard holds an instruction back only by making it invalid. -/
theorem stall_withSb : (s.withSb sb).stall i = s.stall i := by
  have lsu : (s.withSb sb).lsuStall i = s.lsuStall i := by
    rw [lsuStall, lsuStall, lsuTlbQready, lsuTlbQready, lsuQready, lsuQready, lsuReq_withSb same,
      lsuTlbQvalid_withSb same, transReady_withSb same]
    rfl
  have fence : (s.withSb sb).fenceStall i = s.fenceStall i := by
    rw [fenceStall, fenceStall, flushIValid, flushIValid, same]
    rfl
  have acc : (s.withSb sb).accStall i = s.accStall i := by
    rw [accStall, accStall, accQvalid, accQvalid, exception_withSb same, transReady_withSb same, same]
    rfl
  rw [stall, stall, nonaccStall, nonaccStall, lsu, fence, acc, same]

end WithSb

/-- What the core waits for is used, or waited for in vain. -/
theorem waitsFor_iff {r : BitVec C.RegWidth} (ne : r ≠ 0) :
    s.WaitsFor i r ↔ s.Uses i r ∨ s.VainWait i r := by
  constructor
  · intro waits
    by_cases used : s.Uses i r
    · exact .inl used
    refine .inr ⟨ne, used, ?_⟩
    rcases waits with source | ⟨select, here⟩ | ⟨uses, here⟩
    · exact absurd (.inl source) used
    · cases unary : inside i.instData unaryWords with
      | true => exact .inr ⟨select, rfl, here⟩
      | false => exact absurd (.inr (.inl ⟨select, unary, here⟩)) used
    · cases idle : s.idleDestination i with
      | true => exact .inl ⟨uses, rfl, here⟩
      | false => exact absurd (.inr (.inr ⟨uses, idle, here⟩)) used
  · rintro ((source | ⟨select, -, here⟩ | ⟨uses, -, here⟩) | ⟨-, -, ⟨uses, -, here⟩ | ⟨select, -, here⟩⟩)
    · exact .inl source
    · exact .inr (.inl ⟨select, here⟩)
    · exact .inr (.inr ⟨uses, here⟩)
    · exact .inr (.inr ⟨uses, here⟩)
    · exact .inr (.inl ⟨select, here⟩)

/-- Another scoreboard changes only which of the registers are free. -/
theorem validInstr_withSb {sb : BitVec C.RegWidth → Bool} :
    (s.withSb sb).validInstr i = true ↔ i.instReady = true ∧ s.instValid = true ∧
      ((s.itlbValid && s.itlbReady) || !s.transActive) = true ∧
        ∀ r, s.WaitsFor i r → sb r = false :=
  validInstr_iff

/-- An instruction that is ready but for a register waited for in vain is held back by it. -/
theorem held_of_vainWait (ready : s.ReadyBut i) {r : BitVec C.RegWidth} (vain : s.VainWait i r) :
    ¬StallsOnUsed s i := by
  classical
  intro alike
  obtain ⟨word, awake, translated, free⟩ := ready
  let board (busy : Bool) (x : BitVec C.RegWidth) : Bool :=
    if x = 0 ∨ s.Uses i x then s.sb x else busy && decide (x = r)
  have agree : ∀ busy x, x = 0 ∨ s.Uses i x → board busy x = s.sb x := fun _ _ used => if_pos used
  have valid : (s.withSb (board false)).validInstr i = true := by
    refine validInstr_withSb.mpr ⟨word, awake, translated, fun x waits => ?_⟩
    by_cases used : x = 0 ∨ s.Uses i x
    · exact (agree false x used).trans (free x used waits)
    · exact (if_neg used).trans (Bool.false_and _)
  have held : (s.withSb (board true)).validInstr i ≠ true := by
    intro valid
    have free := (validInstr_withSb.mp valid).2.2.2 r ((waitsFor_iff vain.1).mpr (.inr vain))
    have other : ¬(r = 0 ∨ s.Uses i r) := not_or.mpr ⟨vain.1, vain.2.1⟩
    rw [show board true r = (true && decide (r = r)) from if_neg other] at free
    simp at free
  rw [(alike (board false) (agree false)).1] at valid
  rw [(alike (board true) (agree true)).1] at held
  exact held valid

/-- **The core stalls only on registers the instruction uses exactly where it is not held back by
a register waited for in vain alone.** -/
theorem stallsOnUsed_iff : StallsOnUsed s i ↔ ¬(s.ReadyBut i ∧ ∃ r, s.VainWait i r) := by
  constructor
  · rintro alike ⟨ready, r, vain⟩
    exact held_of_vainWait ready vain alike
  · intro none sb agree
    have same : (s.withSb sb).validInstr i = s.validInstr i := by
      rw [Bool.eq_iff_iff, validInstr_withSb, validInstr_iff]
      refine and_congr_right fun word => and_congr_right fun awake =>
        and_congr_right fun translated => ?_
      by_cases free : ∀ r, r = 0 ∨ s.Uses i r → s.WaitsFor i r → s.sb r = false
      · have used : ∀ r, s.WaitsFor i r → r = 0 ∨ s.Uses i r := by
          intro r waits
          by_cases ne : r = 0
          · exact .inl ne
          · refine .inr (((waitsFor_iff ne).mp waits).resolve_right fun vain => ?_)
            exact none ⟨⟨word, awake, translated, free⟩, r, vain⟩
        exact forall_congr' fun r => imp_congr_right fun waits => by rw [agree r (used r waits)]
      · push Not at free
        obtain ⟨r, used, waits, busy⟩ := free
        constructor
        · intro idle
          exact absurd ((agree r used).symm.trans (idle r waits)) busy
        · intro idle
          exact absurd (idle r waits) busy
    exact ⟨same, stall_withSb same⟩

/-- A store whose immediate spells a register with a load under way. -/
def loading (r : BitVec smallCfg.RegWidth) : State smallParts :=
  { State.reset smallParts with sb := fun x => x == r }

/-- **A store waits for its own immediate.**  `sw x1, 5(x2)` uses neither register 5 nor has a
destination, but waits until a load into register 5 is done. -/
theorem store_waits_for_immediate :
    (State.reset smallParts).validInstr { instData := 0x001122a3 } = true ∧
      (loading 5).validInstr { instData := 0x001122a3 } = false ∧
      ¬StallsOnUsed (State.reset smallParts) { instData := 0x001122a3 } := by
  refine ⟨by decide, by decide, fun alike => ?_⟩
  have agree : ∀ r, r = 0 ∨ (State.reset smallParts).Uses { instData := 0x001122a3 } r →
      (loading 5).sb r = (State.reset smallParts).sb r := by
    decide
  exact absurd (alike (loading 5).sb agree).1 (by decide)

end State

end SnitchCluster.Core
