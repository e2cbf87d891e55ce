/-
# Core.PrivStack -- the privilege stack over a cycle

The privilege stack is the part of the registers a trap pushes and a return
pops.  The two return instructions are matched on the instruction word after the
trap entry, so a return that is itself excepted overrides what the trap entered:
`stackRespected_iff` says exactly when that shows.
-/
import SnitchCluster.Core.Pipeline

namespace SnitchCluster.Core

open Theory
open Instr

/-! ## The privilege stack -/

/-- The levels and the interrupt enables a trap saves. -/
structure PrivStack where
  privLvl : PrivLvl
  mpp : PrivLvl
  spp : Bool
  ie : Bool
  pie : Bool
  deriving DecidableEq, Repr

namespace PrivStack

/-- A trap enters machine mode with interrupts off and saves what it left. -/
def enter (p : PrivStack) : PrivStack :=
  { p with privLvl := PrivLvlM, mpp := p.privLvl, ie := false, pie := p.ie }

end PrivStack

def Csrs.stack {C : Cfg} (c : Csrs C) : PrivStack := ⟨c.privLvl, c.mpp, c.spp, c.ie, c.pie⟩

namespace State

variable {C : Cfg} {P : LsuParts C} {s : State P} {i : Input C}

/-! ## The stages of a cycle -/

theorem csrBase_stack : (s.csrBase i).stack = s.csrs.stack := by
  unfold csrBase
  split
  · rfl
  · split
    · rfl
    · split
      · rfl
      · split <;> rfl

/-- An excepted CSR write leaves the privilege stack alone. -/
theorem csrWrite_stack (addr : BitVec 12) (w : BitVec 32) (c : Csrs C) :
    (s.csrWrite true addr w c).stack = c.stack := by
  simp only [csrWrite, if_true]
  repeat' split
  all_goals rfl

theorem csrWritten_stack (unwritten : s.csrEn i = true → s.exception i = true) :
    (s.csrWritten i).stack = s.csrs.stack := by
  unfold csrWritten
  split
  · rename_i written
    simp only [Bool.and_eq_true] at written
    rw [unwritten written.1, csrWrite_stack, csrBase_stack]
  · exact csrBase_stack

theorem trap_stack (c : Csrs C) : (s.trap i c).stack =
    if s.trapEntry i then { c.stack with privLvl := PrivLvlM, mpp := s.csrs.privLvl,
                                         pie := s.csrs.ie, ie := false }
    else c.stack := by
  unfold trap
  cases s.trapEntry i <;> cases s.validInstr i <;> rfl

theorem mret_stack (c : Csrs C) : (s.mret i c).stack =
    if s.validInstr i && BitPat.test MRET i.instData then
      { c.stack with privLvl := s.csrs.mpp, ie := s.csrs.pie, pie := true, mpp := PrivLvlU }
    else c.stack := by
  unfold mret
  split <;> rfl

theorem sret_stack (c : Csrs C) : (s.sret i c).stack =
    if s.validInstr i && BitPat.test SRET i.instData then
      { c.stack with privLvl := (BitVec.ofBool s.csrs.spp).setWidth 2, spp := false }
    else c.stack := by
  unfold sret
  split <;> rfl

/-- The two return words differ. -/
theorem not_sret_of_mret (isMret : BitPat.test MRET i.instData = true) :
    BitPat.test SRET i.instData = false := by
  simp only [BitPat.test, MRET, SRET, beq_iff_eq] at isMret ⊢
  rw [isMret]
  decide

/-- A cycle without a valid instruction leaves the privilege stack alone. -/
theorem stack_of_not_valid (idle : s.validInstr i = false) :
    (s.csrNext i).stack = s.csrs.stack := by
  have unwritten : s.csrEn i = true → s.exception i = true := by
    simp [csrEn_of_not_valid idle]
  rw [csrNext, sret_stack, mret_stack, trap_stack, csrWritten_stack unwritten]
  simp [trapEntry, idle]

/-- **The privilege stack after an excepted instruction.**  The trap is entered,
and then a return word overrides what it entered. -/
theorem stack_of_trapEntry (entered : s.trapEntry i = true) : (s.csrNext i).stack =
    if BitPat.test SRET i.instData then
      { s.csrs.stack.enter with privLvl := (BitVec.ofBool s.csrs.spp).setWidth 2, spp := false }
    else if BitPat.test MRET i.instData then
      { s.csrs.stack.enter with privLvl := s.csrs.mpp, ie := s.csrs.pie, pie := true,
                                mpp := PrivLvlU }
    else s.csrs.stack.enter := by
  have guards := entered
  simp only [trapEntry, Bool.and_eq_true] at guards
  obtain ⟨valid, trapped⟩ := guards
  have pushed : (s.trap i (s.csrWritten i)).stack = s.csrs.stack.enter := by
    rw [trap_stack, csrWritten_stack fun _ => trapped, if_pos entered]
    rfl
  rw [csrNext, sret_stack, mret_stack, pushed, valid, Bool.true_and, Bool.true_and]
  cases isSret : BitPat.test SRET i.instData with
  | false => rfl
  | true =>
    cases isMret : BitPat.test MRET i.instData with
    | false => rfl
    | true => rw [not_sret_of_mret isMret] at isSret; contradiction

/-! ## A trap always enters machine mode -/

/-- A return word. -/
def isReturn (i : Input C) : Bool := BitPat.test MRET i.instData || BitPat.test SRET i.instData

variable (s i) in
/-- A trap pushes the privilege stack, and a return word touches the stack only
when it executes without an exception. -/
def StackRespected : Prop :=
  (s.trapEntry i = true →
    (s.csrNext i).privLvl = PrivLvlM ∧ (s.csrNext i).mpp = s.csrs.privLvl ∧
      (s.csrNext i).pie = s.csrs.ie ∧ (s.csrNext i).ie = false) ∧
  (isReturn i = true → ¬(s.validInstr i = true ∧ s.exception i = false) →
    (s.csrNext i).stack = if s.trapEntry i then s.csrs.stack.enter else s.csrs.stack)

variable (s i) in
/-- An excepted return whose override shows: every SRET, and an MRET unless it
would restore just what the trap enters. -/
def returnOverrides : Bool :=
  s.trapEntry i && (BitPat.test SRET i.instData || (BitPat.test MRET i.instData &&
    !(s.csrs.mpp == PrivLvlM && s.csrs.privLvl == PrivLvlU && s.csrs.ie && !s.csrs.pie)))

/-- A supervisor return never restores machine mode. -/
theorem spp_ne_machine (spp : Bool) : (BitVec.ofBool spp).setWidth 2 ≠ PrivLvlM := by
  cases spp <;> decide

/-- Without a trap a return word that may not execute is idle. -/
theorem stackRespected_of_no_trap (quiet : s.trapEntry i = false) : StackRespected s i := by
  refine ⟨by simp [quiet], fun _ blocked => ?_⟩
  have idle : s.validInstr i = false := by
    cases valid : s.validInstr i with
    | false => rfl
    | true =>
      simp only [trapEntry, valid, Bool.true_and] at quiet
      exact absurd ⟨valid, quiet⟩ blocked
  simpa [quiet] using stack_of_not_valid idle

/-- Where no override shows, the stack is the one the trap enters. -/
theorem stack_of_not_overridden (entered : s.trapEntry i = true)
    (unseen : s.returnOverrides i = false) : (s.csrNext i).stack = s.csrs.stack.enter := by
  rw [stack_of_trapEntry entered]
  cases isSret : BitPat.test SRET i.instData with
  | true => simp [returnOverrides, entered, isSret] at unseen
  | false =>
    cases isMret : BitPat.test MRET i.instData with
    | false => rfl
    | true =>
      simp only [returnOverrides, entered, isSret, isMret, Bool.false_or, Bool.true_and,
        Bool.not_eq_false', Bool.and_eq_true, Bool.not_eq_true', beq_iff_eq] at unseen
      obtain ⟨⟨⟨machine, user⟩, enabled⟩, saved⟩ := unseen
      simp [PrivStack.enter, Csrs.stack, machine, user, enabled, saved]

/-- The four fields a trap writes tell whether an override shows. -/
theorem returnOverrides_of_pushed (entered : s.trapEntry i = true)
    (privLvl : (s.csrNext i).privLvl = PrivLvlM) (mpp : (s.csrNext i).mpp = s.csrs.privLvl)
    (pie : (s.csrNext i).pie = s.csrs.ie) (ie : (s.csrNext i).ie = false) :
    s.returnOverrides i = false := by
  have after := stack_of_trapEntry entered
  rw [Csrs.stack, privLvl, mpp, pie, ie] at after
  cases isSret : BitPat.test SRET i.instData with
  | true =>
    rw [isSret, if_pos rfl, PrivStack.mk.injEq] at after
    exact absurd after.1.symm (spp_ne_machine s.csrs.spp)
  | false =>
    cases isMret : BitPat.test MRET i.instData with
    | false => simp [returnOverrides, isSret, isMret]
    | true =>
      rw [isSret, if_neg Bool.false_ne_true, isMret, if_pos rfl, PrivStack.mk.injEq] at after
      obtain ⟨machine, user, -, saved, enabled⟩ := after
      simp [returnOverrides, isSret, isMret, ← machine, user, ← saved, enabled]

/-- **The privilege stack is respected exactly where no excepted return
overrides it.** -/
theorem stackRespected_iff : StackRespected s i ↔ s.returnOverrides i = false := by
  cases entered : s.trapEntry i with
  | false => simp [stackRespected_of_no_trap entered, returnOverrides, entered]
  | true =>
    constructor
    · intro respected
      obtain ⟨privLvl, mpp, pie, ie⟩ := respected.1 entered
      exact returnOverrides_of_pushed entered privLvl mpp pie ie
    · intro unseen
      have after := stack_of_not_overridden entered unseen
      refine ⟨fun _ => ?_, fun _ _ => by rw [after, entered, if_pos rfl]⟩
      rw [Csrs.stack, PrivStack.enter, PrivStack.mk.injEq] at after
      obtain ⟨privLvl, mpp, -, ie, pie⟩ := after
      exact ⟨privLvl, mpp, pie, ie⟩

/-- The core in user mode. -/
def user : State smallParts :=
  { State.reset smallParts with csrs := { privLvl := PrivLvlU, tvec := 0x800 } }

/-- **SRET from user mode stays in user mode.**  It is illegal there and traps, but
its own assignment to the privilege level comes last: the handler at the vector
runs in user mode. -/
theorem user_sret_overrides :
    user.trapEntry { instData := 0x10200073 } = true ∧
      (user.next { instData := 0x10200073 }).csrs.privLvl = PrivLvlU ∧
      (user.next { instData := 0x10200073 }).pc = user.trapVector ∧
      ¬StackRespected user { instData := 0x10200073 } := by
  refine ⟨by decide, by decide, by decide, fun respected => ?_⟩
  have machine := (respected.1 (by decide)).1
  exact absurd machine (by decide)

end State

end SnitchCluster.Core
