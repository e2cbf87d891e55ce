/-
# Core.Scoreboard -- the scoreboard is the set of registers with a result to come

A load, an atomic or an offloaded instruction leaves the pipeline before its result is
there.  It reserves its destination register in the scoreboard, the result frees it,
and an instruction that names a reserved register waits.  Reservation and release are
written apart: the one under the stall of the pipeline, the other under the
arbitration of the one write port, and both may fall into one cycle.

Here both are events of a ledger (`Theory.Ledger`): a cycle opens an entry where the
load/store unit or an accelerator takes an instruction it owes a result for, and closes
one where a result is written back.  `scoreboard_exact` says that the scoreboard is
what is open, register by register, in every run in which results come from where they
are owed.  That the load/store unit of the core answers so is `lsu_answers_own`.
-/
import SnitchCluster.Core.Pipeline
import SnitchCluster.Core.LsuQueues
import SnitchCluster.Theory.Ledger

namespace SnitchCluster.Core

open Theory
open Instr

/-! ## What an arm reserves and reads -/

namespace Dec

/-- Every arm that leaves its result to others reserves the register and writes nothing
itself; the data of a store or an atomic is an operand the arm waits for. -/
structure Tracks (d : Dec) : Prop where
  load : d.isLoad = true →
    d.isStore = false ∧ d.accRegisterRd = false ∧ d.writeRd = false ∧ d.usesRd = true
  offload : d.accRegisterRd = true → d.accQvalid = true ∧ d.accQgated = false ∧
    d.writeRd = false ∧ d.usesRd = true ∧ d.isFpLoad = false ∧ d.isFpStore = false
  store : d.isStore = true → d.opbSelect = .sImmediate
  atomic : d.lsAmo ≠ .amoNone → d.opbSelect = .reg
  write : d.writeRd = true → d.usesRd = true ∨ d.leaveDebug = true

instance (d : Dec) : Decidable d.Tracks :=
  decidable_of_iff
    ((d.isLoad = true →
        d.isStore = false ∧ d.accRegisterRd = false ∧ d.writeRd = false ∧ d.usesRd = true) ∧
      (d.accRegisterRd = true → d.accQvalid = true ∧ d.accQgated = false ∧ d.writeRd = false ∧
        d.usesRd = true ∧ d.isFpLoad = false ∧ d.isFpStore = false) ∧
      (d.isStore = true → d.opbSelect = .sImmediate) ∧
      (d.lsAmo ≠ .amoNone → d.opbSelect = .reg) ∧
      (d.writeRd = true → d.usesRd = true ∨ d.leaveDebug = true))
    ⟨fun ⟨l, o, s, a, w⟩ => ⟨l, o, s, a, w⟩, fun ⟨l, o, s, a, w⟩ => ⟨l, o, s, a, w⟩⟩

end Dec

section Arms

open Dec

variable (C : Cfg) (privLvl : PrivLvl) (debug : Bool) (fmode : FmtMode) (inst : BitVec 32)

theorem systemArms_tracks : ∀ arm ∈ systemArms privLvl debug, arm.2.Tracks := by
  simp only [systemArms, List.forall_mem_cons]
  refine ⟨by decide, by decide, ?_, ?_, ?_, by decide, by decide, ?_, ?_, by simp⟩
  · split <;> decide
  · split <;> decide
  · split <;> decide
  · split <;> decide
  · cases debug <;> split <;> decide

/-- **Every instruction word is tracked.** -/
theorem decode_tracks : (decode C privLvl debug fmode inst).Tracks :=
  decode_all C privLvl debug fmode inst Tracks (by decide) (systemArms_tracks privLvl debug)
    (by decide)

theorem systemArms_leaveDebug : ∀ arm ∈ systemArms privLvl debug,
    arm.2.leaveDebug = true → arm.1 = [DRET] := by
  simp only [systemArms, List.forall_mem_cons]
  refine ⟨by decide, by decide, ?_, ?_, by simp, by decide, by decide, ?_, ?_, by simp⟩
  · split <;> decide
  · split <;> decide
  · split <;> decide
  · split <;> simp [illegal]

/-- Only the return from debug mode leaves it. -/
theorem decode_leaveDebug (leaves : (decode C privLvl debug fmode inst).leaveDebug = true) :
    BitPat.test DRET inst = true := by
  rcases decode_cases C privLvl debug fmode inst with ⟨arm, member, hit, taken⟩ | other
  · rw [taken] at leaves
    have onlyDret : arm.1 = [DRET] := by
      rcases List.mem_append.mp member with base | system
      · have stays : ∀ arm ∈ baseArms, arm.2.leaveDebug = false := by decide
        rw [stays arm base] at leaves
        contradiction
      · exact systemArms_leaveDebug privLvl debug arm system leaves
    rw [onlyDret] at hit
    simpa [BitPat.inside] using hit
  · have stays : ∀ d ∈ otherValues, d.leaveDebug = false := by decide
    rw [stays _ other] at leaves
    contradiction

end Arms

/-! ## What a cycle opens and closes -/

/-- Who owes the core a result. -/
inductive Source
  | lsu
  | acc
  deriving DecidableEq, Repr

/-- A result to come: who owes it, and the register it is for. -/
abbrev Owed (C : Cfg) := Source × BitVec C.RegWidth

namespace State

variable {C : Cfg} {P : LsuParts C} (s : State P) (i : Input C)

/-- The load/store unit takes a load or an atomic. -/
def issuesLoad : Bool := (s.dec i).isLoad && ((s.lsuReq i).qvalid && s.lsuQready i)

/-- An accelerator takes an instruction it answers into a register. -/
def issuesOffload : Bool := (s.dec i).accRegisterRd && (s.accQvalid i && i.accQready)

def issue : Option (Owed C) :=
  if s.issuesLoad i then some (.lsu, rd i)
  else if s.issuesOffload i then some (.acc, rd i)
  else none

def retire : Option (Owed C) :=
  if s.retireLoad i then some (.lsu, s.lsu.ptag)
  else if s.retireAcc i then some (.acc, i.accPid)
  else none

def entry : Entry (Owed C) := ⟨s.issue i, s.retire i⟩

/-- What the load/store unit sees of a cycle. -/
def lsuIn : LsuIn C := ⟨s.lsuReq i, s.caqReq i, i.dataRsp, s.retireLoad i⟩

/-- What a cycle shows: the results asked for and taken, and the traffic of the load/store
unit with the memory. -/
structure Flow (C : Cfg) where
  entry : Entry (Owed C)
  memory : LsuState.Obs C

variable (P) in
def sbMachine : Machine (State P) (Input C) (Flow C) where
  obs s i := ⟨s.entry i, (LsuState.machine P).obs s.lsu (s.lsuIn i)⟩
  next s i := s.next i

section Past

variable (past : List (Flow C))

/-- The results that were asked for and have not been taken. -/
def owed : Multiset (Owed C) := Ledger.pending (past.map Flow.entry)

/-- How many of them are for a register. -/
def owedTo (r : BitVec C.RegWidth) : Nat := (owed past).countP fun o => o.2 = r

end Past

/-- Loads and offloads are issued in cycles without an exception, and a result that comes
is owed: by the load/store unit since an earlier cycle, by an accelerator possibly since
this one. -/
structure Promised (past : List (Flow C)) (s : State P) (i : Input C) : Prop where
  ordinary : (s.issue i).isSome = true → s.exception i = false
  lsu : s.lsuPvalid i = true → (.lsu, s.lsu.ptag) ∈ owed past
  acc : i.accPvalid = true → (.acc, i.accPid) ∈ owed past + Ledger.single (s.issue i)

instance (past : List (Flow C)) : Decidable (Promised past s i) :=
  decidable_of_iff
    (((s.issue i).isSome = true → s.exception i = false) ∧
      (s.lsuPvalid i = true → (.lsu, s.lsu.ptag) ∈ owed past) ∧
      (i.accPvalid = true → (.acc, i.accPid) ∈ owed past + Ledger.single (s.issue i)))
    ⟨fun ⟨o, l, a⟩ => ⟨o, l, a⟩, fun ⟨o, l, a⟩ => ⟨o, l, a⟩⟩

/-- The registers the instruction reads: as operands, or as the data of a store or an
atomic. -/
def Reads (r : BitVec C.RegWidth) : Prop :=
  ((s.dec i).opaSelect = .reg ∧ r = rs1 i) ∨
    (((s.dec i).opbSelect = .reg ∨ (s.dec i).isStore = true ∨ (s.dec i).lsAmo ≠ .amoNone) ∧
      r = rs2 i)

/-- The register it writes, in this cycle or when its result comes. -/
def Writes (r : BitVec C.RegWidth) : Prop :=
  ((s.dec i).writeRd || (s.dec i).isLoad || (s.dec i).accRegisterRd) = true ∧ r = rd i

/-- The result that a source presents. -/
def presented : Source → BitVec 32
  | .lsu => (s.lsu.ldResult i.dataRsp).setWidth 32
  | .acc => i.accPdata

/-- The scoreboard is what is owed, register by register, and no register is owed two
results. -/
structure Tracked (past : List (Flow C)) (s : State P) : Prop where
  balanced : Ledger.Balanced (past.map Flow.entry)
  exact : ∀ r, r ≠ 0 → (s.sb r = true ↔ owedTo past r = 1)
  once : ∀ r, r ≠ 0 → owedTo past r ≤ 1

/-- A valid instruction names no register with a result to come; a cycle writes one result
at most, the pipeline's before the load/store unit's before an accelerator's, and what is
written is in the register file. -/
structure Arbitrated (past : List (Flow C)) (s : State P) (i : Input C) : Prop where
  free : s.validInstr i = true → ∀ r, r ≠ 0 → s.Reads i r ∨ s.Writes i r → owedTo past r = 0
  pipeline : s.retireI i = true →
    s.retire i = none ∧ s.gprWrite i = some (rd i, s.aluWriteback i)
  result : ∀ o, s.retire i = some o → s.retireI i = false ∧
    o ∈ owed past + Ledger.single (s.issue i) ∧ s.gprWrite i = some (o.2, s.presented i o.1)
  quiet : s.retireI i = false → s.retire i = none → s.gprWrite i = none
  stored : ∀ w, s.gprWrite i = some w → w.1 ≠ 0 → (s.next i).gpr w.1 = w.2
  kept : ∀ r, (∀ w, s.gprWrite i = some w → w.1 ≠ r) → r ≠ 0 → (s.next i).gpr r = s.gpr r

/-! ## One cycle -/

section Cycle

variable {s i}

variable (s i) in
theorem dec_tracks : (s.dec i).Tracks := decode_tracks ..

/-- A load that does not trap leaves the pipeline when the load/store unit takes it. -/
theorem issuesLoad_eq (load : (s.dec i).isLoad = true) (ordinary : s.exception i = false) :
    s.issuesLoad i = !s.stall i := by
  have access : ((s.dec i).isLoad || (s.dec i).isStore) = true := by rw [load, Bool.true_or]
  obtain ⟨noFpLoad, noFpStore, noFence, noFenceI, noOffload⟩ := (s.dec_exclusive i).access access
  have aligned : (s.ldAddrMisaligned i || s.stAddrMisaligned i) = false := by
    rw [exception_of_memory (memory_of_access access)] at ordinary
    simp only [Bool.or_eq_false_iff] at ordinary
    rw [ordinary.1.1.2.1, ordinary.1.1.2.2, Bool.or_false]
  have request : s.lsuTlbQvalid i = s.validInstr i := by
    rw [lsuTlbQvalid, access, aligned, Bool.not_false, Bool.and_true, Bool.and_true]
  have takes : s.issuesLoad i = (s.validInstr i && (s.lsuQready i && s.transReady i)) := by
    rw [issuesLoad, load, lsuReq, request]
    show (true && (s.validInstr i && s.transReady i && s.lsuQready i)) = _
    ac_rfl
  cases valid : s.validInstr i with
  | false => rw [takes, valid, stall_of_not_valid valid, Bool.false_and, Bool.not_true]
  | true =>
    have offers : s.accQvalid i = false := by simp [accQvalid, noOffload]
    rw [takes, valid, stall_iff valid, fenceWaits, noFence, noFenceI, lsuWaits, request, valid,
      caqWaits, caqEna, noFpLoad, noFpStore, accWaits, offers]
    simp

/-- An offload that will be answered leaves it when the accelerator takes it. -/
theorem issuesOffload_eq (answers : (s.dec i).accRegisterRd = true)
    (ordinary : s.exception i = false) : s.issuesOffload i = !s.stall i := by
  obtain ⟨offloads, ungated, -, -, noFpLoad, noFpStore⟩ := (s.dec_tracks i).offload answers
  have noLoad : (s.dec i).isLoad = false := by
    rw [← Bool.not_eq_true]
    intro load
    rw [((s.dec_tracks i).load load).2.1] at answers
    contradiction
  have noStore : (s.dec i).isStore = false := by
    rw [← Bool.not_eq_true]
    intro store
    have access : ((s.dec i).isLoad || (s.dec i).isStore) = true := by rw [store, Bool.or_true]
    rw [((s.dec_exclusive i).access access).2.2.2.2] at offloads
    contradiction
  have noFence : ((s.dec i).fence || (s.dec i).fenceI) = false := by
    rw [← Bool.not_eq_true]
    intro fence
    rw [((s.dec_exclusive i).fences fence).1] at offloads
    contradiction
  have offers : s.accQvalid i = s.validInstr i := by
    rw [accQvalid, offloads, ungated, ordinary]
    simp
  rw [Bool.or_eq_false_iff] at noFence
  rw [issuesOffload, answers, offers]
  cases valid : s.validInstr i with
  | false => rw [stall_of_not_valid valid]; rfl
  | true =>
    rw [stall_iff valid, fenceWaits, noFence.1, noFence.2, lsuWaits, lsuTlbQvalid, noLoad,
      noStore, caqWaits, caqEna, noFpLoad, noFpStore, accWaits, offers, valid]
    simp

/-- The scoreboard reserves in exactly the cycles in which a result is asked for. -/
theorem reserves_eq (ordinary : (s.issue i).isSome = true → s.exception i = false) :
    (((s.dec i).isLoad || (s.dec i).accRegisterRd) && !s.stall i && !s.exception i) =
      (s.issue i).isSome := by
  cases trapped : s.exception i with
  | true =>
    have none : (s.issue i).isSome = false := by
      rw [← Bool.not_eq_true]
      intro issued
      rw [ordinary issued] at trapped
      contradiction
    rw [none, Bool.not_true, Bool.and_false]
  | false =>
    rw [Bool.not_false, Bool.and_true, issue]
    cases load : (s.dec i).isLoad with
    | true =>
      have noAnswer := ((s.dec_tracks i).load load).2.1
      have noOffload : s.issuesOffload i = false := by
        rw [issuesOffload, noAnswer, Bool.false_and]
      rw [noOffload, issuesLoad_eq load trapped]
      cases s.stall i <;> rfl
    | false =>
      have noLoad : s.issuesLoad i = false := by rw [issuesLoad, load, Bool.false_and]
      rw [noLoad]
      cases answers : (s.dec i).accRegisterRd with
      | true =>
        rw [issuesOffload_eq answers trapped]
        cases s.stall i <;> rfl
      | false =>
        have noOffload : s.issuesOffload i = false := by
          rw [issuesOffload, answers, Bool.false_and]
        rw [noOffload]
        rfl

/-- Whoever asks for a result is valid, and asks for the register it reserves. -/
theorem issue_eq_some {o : Owed C} (issued : s.issue i = some o) :
    o.2 = rd i ∧ s.validInstr i = true ∧ (s.dec i).usesRd = true := by
  rw [issue] at issued
  split at issued
  · rename_i load
    cases issued
    rw [issuesLoad, Bool.and_eq_true] at load
    have valid : s.validInstr i = true := by
      have request := load.2
      simp only [lsuReq, lsuTlbQvalid, Bool.and_eq_true] at request
      exact request.1.1.1.1
    exact ⟨rfl, valid, ((s.dec_tracks i).load load.1).2.2.2⟩
  · split at issued
    · rename_i offload
      cases issued
      rw [issuesOffload, Bool.and_eq_true] at offload
      have valid : s.validInstr i = true := by
        have request := offload.2
        simp only [accQvalid, Bool.and_eq_true] at request
        exact request.1.1.1.2
      exact ⟨rfl, valid, ((s.dec_tracks i).offload offload.1).2.2.2.1⟩
    · contradiction

/-- A valid instruction that uses its destination finds it free. -/
theorem sb_rd_of_valid (valid : s.validInstr i = true) (uses : (s.dec i).usesRd = true) :
    s.sb (rd i) = false := by
  simp only [validInstr, Bool.and_eq_true] at valid
  have ready := valid.1.2
  rw [dstReady, uses] at ready
  simpa using ready

/-- A return from debug mode has no destination. -/
theorem rd_of_leaveDebug (leaves : (s.dec i).leaveDebug = true) : rd i = (0 : BitVec C.RegWidth) := by
  have met := decode_leaveDebug _ _ _ _ _ leaves
  have word : i.instData = DRET.value := by
    rw [BitPat.test, beq_iff_eq] at met
    rw [← met]
    exact (BitVec.and_allOnes (w := 32)).symm
  apply BitVec.eq_of_toNat_eq
  rw [rd, word, BitVec.extractLsb'_toNat, Cfg.RegWidth]
  cases C.RVE <;> rfl

/-- A valid instruction finds every register free that it reads or writes. -/
theorem sb_of_valid (valid : s.validInstr i = true) {r : BitVec C.RegWidth} (ne : r ≠ 0)
    (names : s.Reads i r ∨ s.Writes i r) : s.sb r = false := by
  have ready := valid
  simp only [validInstr, Bool.and_eq_true] at ready
  obtain ⟨opa, opb⟩ := ready.1.1.2
  rcases names with (⟨select, rfl⟩ | ⟨select, rfl⟩) | ⟨writes, rfl⟩
  · rw [opaReady, select] at opa
    simpa using opa
  · have among : (s.dec i).opbSelect = .reg ∨ (s.dec i).opbSelect = .sImmediate := by
      rcases select with direct | store | atomic
      · exact .inl direct
      · exact .inr ((s.dec_tracks i).store store)
      · exact .inl ((s.dec_tracks i).atomic atomic)
    rw [opbReady] at opb
    rcases among with select | select <;> simpa [select] using opb
  · have uses : (s.dec i).usesRd = true := by
      rw [Bool.or_eq_true, Bool.or_eq_true] at writes
      rcases writes with (write | load) | answers
      · rcases (s.dec_tracks i).write write with uses | leaves
        · exact uses
        · exact absurd (rd_of_leaveDebug leaves) ne
      · exact ((s.dec_tracks i).load load).2.2.2
      · exact ((s.dec_tracks i).offload answers).2.2.2.1
    exact sb_rd_of_valid valid uses

/-! ## Reservation and release -/

variable (s i) in
/-- A result for the register is asked for. -/
def reserves (r : BitVec C.RegWidth) : Bool := (s.issue i).any fun o => decide (o.2 = r)

variable (s i) in
/-- A result for the register is taken. -/
def frees (r : BitVec C.RegWidth) : Bool := (s.retire i).any fun o => decide (o.2 = r)

theorem reserves_iff {r : BitVec C.RegWidth} :
    s.reserves i r = ((s.issue i).isSome && r == rd i) := by
  cases issued : s.issue i with
  | none => rw [reserves, issued]; rfl
  | some o =>
    rw [reserves, issued, Option.any_some, (issue_eq_some issued).1, Option.isSome_some,
      Bool.true_and]
    exact Bool.eq_iff_iff.mpr (by rw [decide_eq_true_eq, beq_iff_eq, eq_comm])

/-- A result is taken from the load/store unit or else from an accelerator. -/
theorem frees_eq {r : BitVec C.RegWidth} : s.frees i r =
    ((s.retireLoad i && r == s.lsu.ptag) || (s.retireAcc i && r == i.accPid)) := by
  rw [frees, retire]
  cases load : s.retireLoad i with
  | true =>
    have present : s.lsuPvalid i = true := by
      rw [retireLoad, Bool.and_eq_true] at load
      exact load.2
    have noAcc : s.retireAcc i = false := by simp [retireAcc, present]
    rw [if_pos rfl, noAcc, Option.any_some, Bool.true_and, Bool.false_and, Bool.or_false]
    exact Bool.eq_iff_iff.mpr (by rw [decide_eq_true_eq, beq_iff_eq, eq_comm])
  | false =>
    rw [if_neg Bool.false_ne_true, Bool.false_and, Bool.false_or]
    cases acc : s.retireAcc i with
    | true =>
      rw [if_pos rfl, Option.any_some, Bool.true_and]
      exact Bool.eq_iff_iff.mpr (by rw [decide_eq_true_eq, beq_iff_eq, eq_comm])
    | false => rfl

/-- The next scoreboard: the accelerator frees last, and what is reserved in a cycle is not
freed by a load of the same cycle. -/
theorem sbNext_eq (ordinary : (s.issue i).isSome = true → s.exception i = false)
    {r : BitVec C.RegWidth} (ne : r ≠ 0) : s.sbNext i r =
      if s.retireAcc i && r == i.accPid then false
      else if s.reserves i r then true
      else if s.retireLoad i && r == s.lsu.ptag then false
      else s.sb r := by
  rw [sbNext, if_neg ne, reserves_eq ordinary, ← reserves_iff]

section Step

variable {past : List (Flow C)}

/-- What is taken is owed. -/
theorem Promised.covered (promised : Promised past s i) :
    Ledger.Covered (past.map Flow.entry) (s.entry i) := by
  intro o taken
  have source : s.retire i = some o := taken
  rw [retire] at source
  split at source
  · rename_i load
    cases source
    rw [retireLoad, Bool.and_eq_true] at load
    exact Multiset.mem_add.mpr (.inl (promised.lsu load.2))
  · split at source
    · rename_i acc
      cases source
      rw [retireAcc, Bool.and_eq_true] at acc
      exact promised.acc acc.2
    · contradiction

theorem owedTo_pos {o : Owed C} (among : o ∈ owed past) : 0 < owedTo past o.2 :=
  Multiset.countP_pos.mpr ⟨o, among, rfl⟩

/-- A register that a load frees was owed its result before. -/
theorem Promised.owedTo_load (promised : Promised past s i) {r : BitVec C.RegWidth}
    (load : (s.retireLoad i && r == s.lsu.ptag) = true) : 0 < owedTo past r := by
  rw [Bool.and_eq_true, beq_iff_eq, retireLoad, Bool.and_eq_true] at load
  rw [load.2]
  exact owedTo_pos (promised.lsu load.1.2)

/-- So was a register an accelerator frees, unless it is reserved in this very cycle. -/
theorem Promised.owedTo_acc (promised : Promised past s i) {r : BitVec C.RegWidth}
    (acc : (s.retireAcc i && r == i.accPid) = true) (fresh : s.reserves i r = false) :
    0 < owedTo past r := by
  rw [Bool.and_eq_true, beq_iff_eq, retireAcc, Bool.and_eq_true] at acc
  rcases Multiset.mem_add.mp (promised.acc acc.1.2) with before | now
  · rw [acc.2]
    exact owedTo_pos before
  · exfalso
    rw [reserves] at fresh
    cases issued : s.issue i with
    | none => rw [issued] at now; exact absurd now (Multiset.notMem_zero _)
    | some o =>
      rw [issued, Ledger.single_some, Multiset.mem_singleton] at now
      rw [issued, ← now, Option.any_some, acc.2] at fresh
      simp at fresh

/-- What a cycle changes of what a register is owed. -/
theorem owedTo_next (balanced : Ledger.Balanced (past.map Flow.entry))
    (promised : Promised past s i) (r : BitVec C.RegWidth) :
    owedTo (past ++ [(sbMachine P).obs s i]) r + (s.frees i r).toNat =
      owedTo past r + (s.reserves i r).toNat := by
  rw [owedTo, owed, List.map_append]
  exact balanced.countP_concat (fun o : Owed C => o.2 = r) promised.covered

theorem Tracked.owedTo_eq (tracked : Tracked past s) {r : BitVec C.RegWidth} (ne : r ≠ 0) :
    owedTo past r = (s.sb r).toNat := by
  have bound := tracked.once r ne
  cases busy : s.sb r with
  | true => exact (tracked.exact r ne).mp busy
  | false =>
    have other : owedTo past r ≠ 1 := by
      intro one
      rw [(tracked.exact r ne).mpr one] at busy
      contradiction
    show owedTo past r = 0
    omega

/-- A reservation finds the register free. -/
theorem sb_of_reserves {r : BitVec C.RegWidth} (reserved : s.reserves i r = true) :
    s.sb r = false := by
  rw [reserves_iff, Bool.and_eq_true, beq_iff_eq, Option.isSome_iff_exists] at reserved
  obtain ⟨⟨o, issued⟩, rfl⟩ := reserved
  obtain ⟨-, valid, uses⟩ := issue_eq_some issued
  exact sb_rd_of_valid valid uses

/-- **A cycle keeps the scoreboard and what is owed together.** -/
theorem Tracked.owedTo_next (tracked : Tracked past s) (promised : Promised past s i)
    {r : BitVec C.RegWidth} (ne : r ≠ 0) :
    owedTo (past ++ [(sbMachine P).obs s i]) r = (s.sbNext i r).toNat := by
  have moved := State.owedTo_next tracked.balanced promised r
  have before := tracked.owedTo_eq ne
  rw [sbNext_eq promised.ordinary ne]
  rw [frees_eq] at moved
  cases reserved : s.reserves i r with
  | true =>
    -- the register was free, so only the answer to this very instruction frees it again
    rw [sb_of_reserves reserved, Bool.toNat_false] at before
    have noLoad : (s.retireLoad i && r == s.lsu.ptag) = false := by
      rw [← Bool.not_eq_true]
      intro load
      have some := promised.owedTo_load load
      omega
    rw [noLoad, reserved, before, Bool.false_or, Bool.toNat_true] at moved
    cases acc : s.retireAcc i && r == i.accPid with
    | true =>
      rw [acc, Bool.toNat_true] at moved
      rw [if_pos rfl, Bool.toNat_false]
      omega
    | false =>
      rw [acc, Bool.toNat_false] at moved
      rw [if_neg Bool.false_ne_true, if_pos rfl, Bool.toNat_true]
      omega
  | false =>
    rw [reserved, before, Bool.toNat_false, Nat.add_zero] at moved
    have once : (s.sb r).toNat ≤ 1 := Bool.toNat_le _
    cases acc : s.retireAcc i && r == i.accPid with
    | true =>
      have some := promised.owedTo_acc acc reserved
      rw [acc, Bool.or_true, Bool.toNat_true] at moved
      rw [if_pos rfl, Bool.toNat_false]
      omega
    | false =>
      rw [if_neg Bool.false_ne_true, if_neg Bool.false_ne_true]
      cases load : s.retireLoad i && r == s.lsu.ptag with
      | true =>
        have some := promised.owedTo_load load
        rw [load, Bool.true_or, Bool.toNat_true] at moved
        rw [if_pos rfl, Bool.toNat_false]
        omega
      | false =>
        rw [load, acc, Bool.or_false, Bool.toNat_false] at moved
        rw [if_neg Bool.false_ne_true]
        exact moved

theorem Tracked.next (tracked : Tracked past s) (promised : Promised past s i) :
    Tracked (past ++ [(sbMachine P).obs s i]) (s.next i) where
  balanced := by
    rw [List.map_append]
    exact tracked.balanced.concat promised.covered
  exact r ne := by
    rw [tracked.owedTo_next promised ne]
    show s.sbNext i r = true ↔ _
    cases s.sbNext i r <;> simp
  once r ne := by
    rw [tracked.owedTo_next promised ne]
    exact Bool.toNat_le _

/-- **Who writes in a cycle.** -/
theorem Tracked.arbitrated (tracked : Tracked past s) (promised : Promised past s i) :
    Arbitrated past s i where
  free valid r ne names := by
    rw [tracked.owedTo_eq ne, sb_of_valid valid ne names, Bool.toNat_false]
  pipeline writes := by
    have noLoad : s.retireLoad i = false := by simp [retireLoad, writes]
    have noAcc : s.retireAcc i = false := by simp [retireAcc, writes]
    constructor
    · rw [retire, noLoad, noAcc]
      rfl
    · rw [gprWrite, if_pos writes]
  result o taken := by
    have owedNow := promised.covered o taken
    rw [retire] at taken
    split at taken
    · rename_i load
      cases taken
      rw [retireLoad, Bool.and_eq_true, Bool.not_eq_true'] at load
      refine ⟨load.1, owedNow, ?_⟩
      rw [gprWrite, load.1, if_neg Bool.false_ne_true, if_pos load.2]
      rfl
    · split at taken
      · rename_i acc
        cases taken
        rw [retireAcc, Bool.and_eq_true, Bool.and_eq_true, Bool.not_eq_true',
          Bool.not_eq_true'] at acc
        refine ⟨acc.1.1, owedNow, ?_⟩
        rw [gprWrite, acc.1.1, acc.1.2, if_neg Bool.false_ne_true, if_neg Bool.false_ne_true,
          if_pos acc.2]
        rfl
      · contradiction
  quiet idle none := by
    rw [retire, retireLoad, retireAcc, idle] at none
    rw [gprWrite, idle, if_neg Bool.false_ne_true]
    cases load : s.lsuPvalid i with
    | true => rw [load] at none; contradiction
    | false =>
      rw [load] at none
      cases acc : i.accPvalid with
      | true => rw [acc] at none; contradiction
      | false => rfl
  stored w written ne := by
    show s.gprNext i w.1 = w.2
    rw [gprNext, if_neg ne, written]
    exact if_pos rfl
  kept r others ne := by
    show s.gprNext i r = s.gpr r
    rw [gprNext, if_neg ne]
    cases written : s.gprWrite i with
    | none => rfl
    | some w => exact if_neg (others w written).symm

/-- **The scoreboard is exact.**  In every run from reset in which loads and offloads are
issued in cycles without an exception and results come from where they are owed, for any
queues of the load/store unit: a register other than 0 is marked if and only if exactly
one load, atomic or offloaded instruction with that destination has been issued and not
yet retired, and there is never a second.  So a valid instruction names no register with
a result to come, and each result is written once, in a cycle of its own. -/
theorem scoreboard_exact {past : List (Flow C)} {s : State P}
    (reached : (sbMachine P).Reaches Promised (State.reset P) past s) :
    Tracked past s ∧ ∀ i, Promised past s i → Arbitrated past s i := by
  have tracked : Tracked past s := by
    refine reached.invariant Tracked ?_ ?_
    · refine ⟨Ledger.balanced_nil, fun r _ => ?_, fun r _ => Nat.zero_le _⟩
      constructor
      · intro marked
        exact absurd marked Bool.false_ne_true
      · intro one
        exact absurd one Nat.zero_ne_one
    · intro past s i _ before promised
      exact before.next promised
  exact ⟨tracked, fun i promised => tracked.arbitrated promised⟩

/-- `lw x5, 0(x0)`, then `mul x6, x1, x2` while the word comes back, then the product. -/
def loadThenMul : List (Input smallCfg) :=
  [{ instData := 0x00002283 },
    { instData := 0x02208333, dataRsp := ⟨true, true, 42⟩ },
    { instData := 0x00000013, accPvalid := true, accPid := 6, accPdata := 7 }]

/-- The load is written while the multiplication is issued, and the product after it. -/
theorem scoreboard_exact_mul :
    let s := (sbMachine smallParts).run (State.reset smallParts) loadThenMul
    Tracked ((sbMachine smallParts).trace (State.reset smallParts) loadThenMul) s ∧
      s.gpr 5 = 42 ∧ s.gpr 6 = 7 ∧
      ((sbMachine smallParts).run (State.reset smallParts) (loadThenMul.take 2)).sb 6 = true := by
  refine ⟨(scoreboard_exact ((sbMachine smallParts).reaches_run _ loadThenMul ?_)).1, ?_, ?_, ?_⟩
  · decide
  · decide
  · decide
  · decide

/-! ## The load/store unit keeps its promise -/

/-- The same with a memory that answers in order in place of the promise of the load/store
unit. -/
structure MemoryPromised (past : List (Flow C)) (s : State P) (i : Input C) : Prop where
  ordinary : (s.issue i).isSome = true → s.exception i = false
  memory : LsuState.inOrder (past.map Flow.memory) s.lsu (s.lsuIn i)
  acc : i.accPvalid = true → (.acc, i.accPid) ∈ owed past + Ledger.single (s.issue i)

instance (past : List (Flow C)) : Decidable (MemoryPromised past s i) :=
  decidable_of_iff
    (((s.issue i).isSome = true → s.exception i = false) ∧
      LsuState.inOrder (past.map Flow.memory) s.lsu (s.lsuIn i) ∧
      (i.accPvalid = true → (.acc, i.accPid) ∈ owed past + Ledger.single (s.issue i)))
    ⟨fun ⟨o, m, a⟩ => ⟨o, m, a⟩, fun ⟨o, m, a⟩ => ⟨o, m, a⟩⟩

theorem issuesLoad_eq_issues :
    s.issuesLoad i = (s.lsu.issues (s.lsuIn i) && !(s.lsuIn i).req.qwrite) := by
  rw [← LsuState.accepts_eq_issues, issuesLoad]
  show ((s.dec i).isLoad && (s.lsuTlbQvalid i && s.transReady i && s.lsuQready i)) =
    (s.lsuTlbQvalid i && s.transReady i && s.lsuQready i && !(s.dec i).isStore)
  cases request : s.lsuTlbQvalid i with
  | false => simp
  | true =>
    have access := lsuTlbQvalid_access request
    cases load : (s.dec i).isLoad with
    | true => rw [((s.dec_tracks i).load load).1]; simp
    | false =>
      rw [load, Bool.false_or] at access
      rw [access]
      simp

theorem retireLoad_eq_delivers : s.retireLoad i = s.lsu.delivers (s.lsuIn i) := by
  show _ = (s.lsuPvalid i && s.retireLoad i)
  rw [retireLoad]
  cases s.lsuPvalid i <;> simp

/-- The part of a ledger entry that concerns the load/store unit. -/
def ofLsu (o : Owed C) : Prop := o.1 = .lsu

instance (o : Owed C) : Decidable (ofLsu o) := inferInstanceAs (Decidable (o.1 = .lsu))

theorem filter_issue : (Ledger.single (s.issue i)).filter ofLsu =
    if s.issuesLoad i then {(.lsu, rd i)} else 0 := by
  rw [issue]
  cases s.issuesLoad i with
  | true => rfl
  | false => cases s.issuesOffload i <;> rfl

theorem filter_retire : (Ledger.single (s.retire i)).filter ofLsu =
    if s.retireLoad i then {(.lsu, s.lsu.ptag)} else 0 := by
  rw [retire]
  cases s.retireLoad i with
  | true => rfl
  | false => cases s.retireAcc i <;> rfl

section Queues

variable {laqContents : P.laq.State → List (Laq C)} {memContents : P.mem.State → List Bool}

/-- What the load queue owes. -/
def laqOwed (laqContents : P.laq.State → List (Laq C)) (s : State P) : Multiset (Owed C) :=
  (laqContents s.lsu.laq).map fun out => (Source.lsu, out.tag)

variable (laqLawful : P.laq.Lawful C.NumIntOutstandingLoads laqContents)
  (memLawful : P.mem.Lawful C.NumIntOutstandingMem memContents)

/-- The run of the load/store unit inside the run of the core. -/
theorem lsu_reaches
    (reached : (sbMachine P).Reaches MemoryPromised (State.reset P) past s) :
    (LsuState.machine P).Reaches LsuState.inOrder (LsuState.init P) (past.map Flow.memory)
      s.lsu :=
  reached.component State.lsu lsuIn Flow.memory (fun _ _ => rfl) (fun _ _ => rfl)
    fun _ _ _ admitted => admitted.memory

include laqLawful memLawful

/-- A result presented is at the head of the load queue. -/
theorem laq_head
    (queued : LsuState.Queued laqContents memContents (past.map Flow.memory) s.lsu)
    (memory : LsuState.inOrder (past.map Flow.memory) s.lsu (s.lsuIn i))
    (present : s.lsuPvalid i = true) :
    ∃ out later, laqContents s.lsu.laq = out :: later ∧ s.lsu.ptag = out.tag := by
  have answer : i.dataRsp.pValid = true := by
    rw [lsuPvalid, LsuState.pvalid, Bool.and_eq_true] at present
    exact present.1
  obtain ⟨r, later, oldest⟩ := queued.oldest memory answer
  have load : r.qwrite = false := by
    rw [lsuPvalid, LsuState.pvalid, queued.memOut_eq memLawful oldest, answer] at present
    simpa using present
  refine ⟨r.remembered, (later.filter fun r => !r.qwrite).map LsuReq.remembered, ?_, ?_⟩
  · rw [queued.laq, oldest, List.filter_cons_of_pos (by rw [load]; rfl), List.map_cons]
  · rw [LsuState.ptag, queued.laqOut_eq laqLawful oldest load]

/-- The load queue is opened and closed as the ledger is. -/
theorem laqOwed_next
    (queued : LsuState.Queued laqContents memContents (past.map Flow.memory) s.lsu)
    (memory : LsuState.inOrder (past.map Flow.memory) s.lsu (s.lsuIn i)) :
    laqOwed laqContents (s.next i) + (Ledger.single (s.retire i)).filter ofLsu =
      laqOwed laqContents s + (Ledger.single (s.issue i)).filter ofLsu := by
  have moved := queued.laq_next laqLawful memLawful memory
  rw [← issuesLoad_eq_issues, ← retireLoad_eq_delivers] at moved
  have after : laqContents (s.next i).lsu.laq = _ := moved
  rw [filter_issue, filter_retire, laqOwed, laqOwed, after]
  have pushed : ((if s.issuesLoad i then [(s.lsuIn i).req.remembered] else []).map
      fun out => (Source.lsu, out.tag) : List (Owed C)) =
        if s.issuesLoad i then [(.lsu, rd i)] else [] := by
    cases s.issuesLoad i <;> rfl
  rw [List.map_append, pushed]
  cases load : s.retireLoad i with
  | false =>
    rw [if_neg Bool.false_ne_true, if_neg Bool.false_ne_true, add_zero]
    cases s.issuesLoad i <;> rfl
  | true =>
    have present : s.lsuPvalid i = true := by
      rw [retireLoad, Bool.and_eq_true] at load
      exact load.2
    obtain ⟨out, later, head, tag⟩ := laq_head laqLawful memLawful queued memory present
    rw [if_pos rfl, if_pos rfl, head, tag, List.tail_cons, List.map_cons, ← Multiset.coe_add,
      ← Multiset.cons_coe, ← Multiset.singleton_add, add_comm, add_assoc]
    cases s.issuesLoad i <;> rfl

variable (laqContents) in
/-- What the load/store unit owes by the ledger is what its load queue holds. -/
structure Ledgered (past : List (Flow C)) (s : State P) : Prop where
  balanced : Ledger.Balanced (past.map Flow.entry)
  laq : (owed past).filter ofLsu = laqOwed laqContents s

theorem Ledgered.promised (ledgered : Ledgered laqContents past s)
    (queued : LsuState.Queued laqContents memContents (past.map Flow.memory) s.lsu)
    (admitted : MemoryPromised past s i) : Promised past s i where
  ordinary := admitted.ordinary
  lsu present := by
    obtain ⟨out, later, head, tag⟩ :=
      laq_head laqLawful memLawful queued admitted.memory present
    have among : (Source.lsu, s.lsu.ptag) ∈ (owed past).filter ofLsu := by
      rw [ledgered.laq, laqOwed, head, tag, List.map_cons]
      exact Multiset.mem_coe.mpr List.mem_cons_self
    exact Multiset.mem_of_mem_filter among
  acc := admitted.acc

theorem Ledgered.next (ledgered : Ledgered laqContents past s)
    (queued : LsuState.Queued laqContents memContents (past.map Flow.memory) s.lsu)
    (admitted : MemoryPromised past s i) :
    Ledgered laqContents (past ++ [(sbMachine P).obs s i]) (s.next i) where
  balanced := by
    rw [List.map_append]
    exact ledgered.balanced.concat
      (ledgered.promised laqLawful memLawful queued admitted).covered
  laq := by
    have covered := (ledgered.promised laqLawful memLawful queued admitted).covered
    have moved := congrArg (Multiset.filter ofLsu) (ledgered.balanced.pending_concat covered)
    rw [Multiset.filter_add, Multiset.filter_add] at moved
    have queue := laqOwed_next laqLawful memLawful queued admitted.memory
    rw [← ledgered.laq] at queue
    rw [owed, List.map_append]
    exact Multiset.add_left_inj.mp (moved.trans queue.symm)

/-- **The load/store unit of the core answers for itself.**  With lawful queues of any depth
and a memory that answers in order, the run is one in which results come from where they
are owed. -/
theorem lsu_answers_own
    (reached : (sbMachine P).Reaches MemoryPromised (State.reset P) past s) :
    (sbMachine P).Reaches Promised (State.reset P) past s := by
  have queued : ∀ past s, (sbMachine P).Reaches MemoryPromised (State.reset P) past s →
      LsuState.Queued laqContents memContents (past.map Flow.memory) s.lsu :=
    fun _ _ reached => LsuState.queued_reached laqLawful memLawful (lsu_reaches reached)
  have ledgered : ∀ past s, (sbMachine P).Reaches MemoryPromised (State.reset P) past s →
      Ledgered laqContents past s := by
    intro past s reached
    refine reached.invariant (Ledgered laqContents) ?_ ?_
    · refine ⟨Ledger.balanced_nil, ?_⟩
      have empty : laqContents (State.reset P).lsu.laq = [] := laqLawful.init
      rw [laqOwed, empty]
      rfl
    · intro past s i reached before admitted
      exact before.next laqLawful memLawful (queued past s reached) admitted
  refine reached.mono fun past s i reached admitted => ?_
  exact (ledgered past s reached).promised laqLawful memLawful (queued past s reached) admitted

end Queues

theorem lsu_answers_own_load : (sbMachine smallParts).Reaches Promised (State.reset smallParts)
    ((sbMachine smallParts).trace (State.reset smallParts) loadThenMul)
    ((sbMachine smallParts).run (State.reset smallParts) loadThenMul) :=
  lsu_answers_own (Fifo.ofList_lawful _ _) (Fifo.ofList_lawful _ _)
    ((sbMachine smallParts).reaches_run _ loadThenMul (by decide))

end Step

end Cycle

end State

end SnitchCluster.Core
