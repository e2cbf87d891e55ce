/-
# Core.Trap -- trap entry against the redirect of the program counter

Two guards decide about a trap: the control registers are updated when the
instruction is valid and excepted (`trapEntry`), the program counter moves to the
vector when the core also advances (`redirected`).  A trapped instruction that
waits separates the two: the registers enter machine mode, the program goes on.
-/
import SnitchCluster.Core.PrivStack

namespace SnitchCluster.Core

open Theory
open Instr

namespace State

variable {C : Cfg} {P : LsuParts C} {s : State P} {i : Input C}

/-! ## The two guards -/

variable (s i) in
/-- No debug mode, no debug request, no single step. -/
structure OutsideDebug : Prop where
  mode : s.debugQ = false
  request : debugReq i = false
  step : s.dcsrQ.step = false

variable (s i) in
/-- The guard of the redirect: the core advances, by an exception. -/
def redirected : Bool := s.advance i && s.nextPc i == .exception

theorem redirected_iff : s.redirected i = true ↔ s.trapEntry i = true ∧ s.stall i = false := by
  simp only [redirected, advance_eq, Bool.and_eq_true, Bool.not_eq_true', beq_iff_eq,
    nextPc_eq_exception, trapEntry]
  constructor
  · rintro ⟨moves, trapped⟩
    cases valid : s.validInstr i with
    | false => rw [stall_of_not_valid valid] at moves; contradiction
    | true => exact ⟨⟨rfl, trapped⟩, moves⟩
  · rintro ⟨⟨-, trapped⟩, moves⟩
    exact ⟨moves, trapped⟩

/-- A redirect outside debug mode goes to the trap vector. -/
theorem pcD_of_redirected (outside : OutsideDebug s i) (moved : s.redirected i = true) :
    s.pcD i = s.trapVector := by
  simp only [redirected, Bool.and_eq_true, beq_iff_eq] at moved
  simp [pcD, npc, moved, outside.mode, outside.request, outside.step]

/-! ## What a trap entry writes -/

theorem csrNext_epc (entered : s.trapEntry i = true) : (s.csrNext i).epc.m = s.pc := by
  simp only [csrNext, sret, mret, trap, entered, if_true]
  split <;> split <;> rfl

theorem csrNext_cause (entered : s.trapEntry i = true) :
    (s.csrNext i).cause = s.trapCause i (s.csrWritten i).cause := by
  have valid : s.validInstr i = true := by
    simp only [trapEntry, Bool.and_eq_true] at entered
    exact entered.1
  simp only [csrNext, sret, mret, trap, entered, valid, if_true]
  split <;> split <;> rfl

variable (s i) in
/-- A trap whose cause nothing writes: a page fault of a floating-point access
with no other reason to trap. -/
def silentFault : Bool :=
  s.trapEntry i && s.caqEna i && (s.dtlbPageFault i && s.dtlbTransValid i) &&
    !(s.interrupt i || s.lsMisaligned i || (s.itlbPageFault i && s.itlbTransValid))

/-- A data fault is an integer access's or a floating-point access's. -/
theorem access_of_dtlbTransValid (fault : s.dtlbTransValid i = true)
    (integer : s.caqEna i = false) : ((s.dec i).isLoad || (s.dec i).isStore) = true := by
  simp only [caqEna] at integer
  simp only [dtlbTransValid, dtlbValid, integer, Bool.false_and, Bool.or_false,
    Bool.and_eq_true] at fault
  exact lsuTlbQvalid_access fault.1.2.1

/-- **Every trap writes its cause, except the silent fault.** -/
theorem causeWritten_eq (entered : s.trapEntry i = true) :
    s.causeWritten i = !s.silentFault i := by
  have trapped : s.exception i = true := by
    simp only [trapEntry, Bool.and_eq_true] at entered
    exact entered.2
  cases fpAccess : s.caqEna i with
  | false =>
    have access := fun fault => access_of_dtlbTransValid (s := s) (i := i) fault fpAccess
    simp only [exception, Bool.or_eq_true, Bool.and_eq_true] at trapped
    simp only [Bool.or_eq_true] at access
    simp only [silentFault, fpAccess, Bool.and_false, Bool.false_and, Bool.not_false,
      causeWritten, causeWrites, List.any_cons, List.any_nil, Bool.or_false,
      Bool.or_eq_true, Bool.and_eq_true]
    grind
  | true =>
    have access := memory_of_caqEna fpAccess
    obtain ⟨noLoad, noStore, -⟩ := (s.dec_exclusive i).fpAccess fpAccess
    obtain ⟨legal, noEcall, noEbreak, noCsr⟩ := (s.dec_exclusive i).silent (by simp [access])
    have noIllegalCsr : s.illegalCsr i = false := by simp [illegalCsr, csrEn, noCsr]
    have sources : s.causeWritten i = (s.interrupt i || s.lsMisaligned i ||
        (s.itlbPageFault i && s.itlbTransValid)) := by
      simp only [causeWritten, causeWrites, legal, noIllegalCsr, noEcall, noEbreak, noLoad,
        noStore, instAddrMisaligned_of_memory access, List.any_cons, List.any_nil,
        Bool.and_false, Bool.or_false, Bool.false_or, ← misaligned_of_memory access]
      ac_rfl
    have excepted : (s.causeWritten i || (s.dtlbPageFault i && s.dtlbTransValid i)) = true := by
      rw [← trapped, sources, exception_of_memory access, misaligned_of_memory access]
      ac_rfl
    rw [silentFault, entered, fpAccess, ← sources]
    cases written : s.causeWritten i with
    | true => simp
    | false => simpa [written] using excepted

/-! ## Trap entry is atomic with the redirect -/

variable (s i) in
/-- The updates of a trap entry, in the registers after the cycle; the cause is
one that some assignment of the cycle writes. -/
structure TrapUpdates : Prop where
  epc : (s.csrNext i).epc.m = s.pc
  cause : (true, (s.csrNext i).cause) ∈ s.causeWrites i
  privLvl : (s.csrNext i).privLvl = PrivLvlM
  mpp : (s.csrNext i).mpp = s.csrs.privLvl
  pie : (s.csrNext i).pie = s.csrs.ie
  ie : (s.csrNext i).ie = false

variable (s i) in
/-- The trap is entered only together with the redirect, and a redirect makes
every update of the trap entry. -/
def TrapAtomic : Prop :=
  (s.trapEntry i = true → s.redirected i = true ∧ s.pcD i = s.trapVector) ∧
    (s.redirected i = true → TrapUpdates s i)

variable (s i) in
/-- A trapped instruction waits: for the fence, the load/store unit or the
address queue. -/
def trapStalled : Bool := s.trapEntry i && (s.fenceWaits i || s.lsuWaits i || s.caqWaits i)

theorem trapStalled_eq (entered : s.trapEntry i = true) : s.trapStalled i = s.stall i := by
  have guards := entered
  simp only [trapEntry, Bool.and_eq_true] at guards
  rw [trapStalled, entered, Bool.true_and, stall_of_exception guards.1 guards.2]

/-- The updates are complete exactly when no return overrides them and the cause
is written. -/
theorem trapUpdates_iff (entered : s.trapEntry i = true) :
    TrapUpdates s i ↔ s.returnOverrides i = false ∧ s.silentFault i = false := by
  have cause : s.causeWritten i = !s.silentFault i := causeWritten_eq entered
  constructor
  · intro updates
    have written : s.causeWritten i = true := List.any_eq_true.mpr ⟨_, updates.cause, rfl⟩
    refine ⟨?_, by simpa [written] using cause⟩
    exact returnOverrides_of_pushed entered updates.privLvl updates.mpp updates.pie updates.ie
  · rintro ⟨unseen, loud⟩
    have after := stack_of_not_overridden entered unseen
    rw [Csrs.stack, PrivStack.enter, PrivStack.mk.injEq] at after
    obtain ⟨privLvl, mpp, -, ie, pie⟩ := after
    have written : s.causeWritten i = true := by rw [cause, loud]; rfl
    refine ⟨csrNext_epc entered, ?_, privLvl, mpp, pie, ie⟩
    rw [csrNext_cause entered]
    exact lastWrite_mem _ _ written

/-- **Trap entry is atomic with the redirect exactly when the trapped instruction
does not wait, no return word overrides the entry and the cause is written.** -/
theorem trapAtomic_iff (outside : OutsideDebug s i) : TrapAtomic s i ↔
    s.trapStalled i = false ∧ s.returnOverrides i = false ∧ s.silentFault i = false := by
  cases entered : s.trapEntry i with
  | false =>
    have still : s.redirected i = false := by
      simpa [entered] using mt redirected_iff.mp (by simp [entered])
    simp [TrapAtomic, trapStalled, returnOverrides, silentFault, entered, still]
  | true =>
    rw [trapStalled_eq entered, ← trapUpdates_iff entered]
    constructor
    · rintro ⟨moves, updates⟩
      have moved := (moves entered).1
      exact ⟨(redirected_iff.mp moved).2, updates moved⟩
    · rintro ⟨moves, updates⟩
      have moved := redirected_iff.mpr ⟨entered, moves⟩
      exact ⟨fun _ => ⟨moved, pcD_of_redirected outside moved⟩, fun _ => updates⟩

/-! ### A trap without its redirect -/

/-- The external interrupt is enabled and `stores` are outstanding. -/
def fencing (stores : List Bool) : State smallParts :=
  { State.reset smallParts with
    csrs := { ie := true, eie := ⟨true, false⟩, tvec := 0x800 }
    lsu := ⟨[], stores, []⟩ }

/-- A FENCE is fetched while the interrupt is raised; the memory may answer. -/
def fenceIn (answer : Bool) : Input smallCfg where
  instData := 0x0000000f
  irq := { meip := true }
  dataRsp := ⟨true, answer, 0⟩

/-- With nothing outstanding, the FENCE gives way to the interrupt as it should. -/
theorem trapAtomic_iff_fencing :
    TrapAtomic (fencing []) (fenceIn false) ∧ (fencing []).trapEntry (fenceIn false) = true := by
  refine ⟨(trapAtomic_iff ⟨by decide, by decide, by decide⟩).mpr ?_, by decide⟩
  decide

/-- **An interrupt during a stalled FENCE is lost.**  The core enters machine mode
with interrupts disabled, stays at the FENCE, and once the store is answered goes
on past it: the handler never runs. -/
theorem fence_loses_interrupt :
    OutsideDebug (fencing [true]) (fenceIn false) ∧
      ¬TrapAtomic (fencing [true]) (fenceIn false) ∧
      (let s₁ := (fencing [true]).next (fenceIn false)
       let s₃ := (s₁.next (fenceIn true)).next (fenceIn false)
       s₁.csrs.privLvl = PrivLvlM ∧ s₁.csrs.ie = false ∧ s₁.pc = smallCfg.BootAddr ∧
         s₃.csrs.ie = false ∧ s₃.pc = smallCfg.BootAddr + 4) := by
  refine ⟨⟨by decide, by decide, by decide⟩, fun atomic => ?_, by decide⟩
  have moved := (atomic.1 (by decide)).1
  exact absurd moved (by decide)

end State

end SnitchCluster.Core
