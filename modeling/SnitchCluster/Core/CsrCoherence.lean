/-
# Core.CsrCoherence -- what is written to a CSR is what is read from it

The CSR block packs a register for a read and unpacks it for a write in separate lines of each
arm, at bit positions of their own, and the set and clear forms send the old value through the
arithmetic unit.  `coherent_iff` compares the two: an access hands the old value to its
destination and leaves the specified value in the implemented fields, except that a write of
`sstatus` keeps `spp`, that `satp` reads its mode at bit 22 and takes it at bit 31, and that a
core with sixteen registers loses the upper bit of an immediate.
-/
import SnitchCluster.Core.CsrEffects
import SnitchCluster.Core.Execute

namespace SnitchCluster.Core

open Theory
open Theory.BitPat
open Instr

/-! ## What an access specifies -/

inductive CsrOp where
  | write | set | clear
  deriving DecidableEq, Repr

/-- The value an access leaves in a register. -/
def CsrOp.apply (op : CsrOp) (old operand : BitVec 32) : BitVec 32 :=
  match op with
  | .write => operand
  | .set => old ||| operand
  | .clear => old &&& ~~~operand

def csrOp (inst : BitVec 32) : CsrOp :=
  if inside inst [CSRRS, CSRRSI] then .set
  else if inside inst [CSRRC, CSRRCI] then .clear
  else .write

def csrImmediate (inst : BitVec 32) : Bool := inside inst [CSRRWI, CSRRSI, CSRRCI]

/-- The registers with writable state. -/
def csrWritable : List (BitVec 12) :=
  [CSR_MSTATUS, CSR_SSTATUS, CSR_MEPC, CSR_SEPC, CSR_MIE, CSR_MIP, CSR_MCAUSE, CSR_MTVEC,
    CSR_MSCRATCH, CSR_SSCRATCH, CSR_SATP, CSR_FFLAGS, CSR_FRM, CSR_FMODE, CSR_FCSR, CsrMseg,
    CSR_MCAST]

/-- The implemented bits of a register. -/
def csrFields (C : Cfg) (addr : BitVec 12) : List Nat :=
  if addr = CSR_MSTATUS then [3, 7, 8, 11, 12]
  else if addr = CSR_SSTATUS then [8]
  else if addr = CSR_MIE then [MEI, MTI, MSI, MCI, MXI, SEI, STI, SSI, SCI]
  else if addr = CSR_MIP then [SEI, STI, SSI, SCI]
  else if addr = CSR_MCAUSE then [0, 1, 2, 3, 4, 31]
  else if addr = CSR_MTVEC then (List.range 32).drop 2
  else if addr = CSR_SATP then List.range 22 ++ if C.VMSupport then [31] else []
  else if addr = CSR_FFLAGS then List.range 5
  else if addr = CSR_FRM then List.range 3
  else if addr = CSR_FMODE then List.range 2
  else if addr = CSR_FCSR then List.range 10
  else if addr = CsrMseg then List.range (min 32 (C.AddrWidth - 32))
  else List.range 32

namespace State

variable {C : Cfg} {P : LsuParts C} (s : State P) (i : Input C)

/-- The operand: a register, or the five bits of the immediate. -/
def csrOperand : BitVec 32 :=
  if csrImmediate i.instData then (i.instData.extractLsb' 15 5).setWidth 32 else s.gpr (rs1 i)

/-- The value the access specifies. -/
def csrSpecified : BitVec 32 :=
  (csrOp i.instData).apply (s.csrRead i (csrAddr i.instData)) (s.csrOperand i)

/-- An access is coherent: its destination receives the old value, and as long as nothing else
updates the registers they read as specified in the implemented bits and as before in the
others, with the views of one field in agreement. -/
structure Coherent : Prop where
  result : rd (C := C) i ≠ 0 → (s.next i).gpr (rd i) = s.csrRead i (csrAddr i.instData)
  fields : ∀ (t : State P) (j : Input C), t.csrs = (s.next i).csrs →
    ∀ k ∈ csrFields C (csrAddr i.instData),
      (t.csrRead j (csrAddr i.instData)).getLsbD k = (s.csrSpecified i).getLsbD k
  others : ∀ (t : State P) (j : Input C), t.csrs = (s.next i).csrs →
    ∀ k < 32, k ∉ csrFields C (csrAddr i.instData) →
      (t.csrRead j (csrAddr i.instData)).getLsbD k =
        (s.csrRead j (csrAddr i.instData)).getLsbD k
  status : ∀ (t : State P) (j : Input C), t.csrs = (s.next i).csrs →
    (t.csrRead j CSR_SSTATUS).getLsbD 8 = (t.csrRead j CSR_MSTATUS).getLsbD 8
  float : ∀ (t : State P) (j : Input C), t.csrs = (s.next i).csrs →
    t.csrRead j CSR_FCSR = t.csrRead j CSR_FFLAGS ||| t.csrRead j CSR_FRM <<< 5 |||
      t.csrRead j CSR_FMODE <<< 8

/-- The bits the access specifies are those it leaves: none of `spp` written through `sstatus`,
no translation mode before or after a write of `satp`, no lost bit of the immediate. -/
structure WritesSpecified : Prop where
  spp : csrAddr i.instData = CSR_SSTATUS → (s.csrSpecified i).getLsbD 8 = s.csrs.spp
  mode : csrAddr i.instData = CSR_SATP → s.csrs.satp.mode = false ∧
    (C.VMSupport = true → (s.csrSpecified i).getLsbD 31 = false)
  immediate : C.RVE = true → csrImmediate i.instData = true → i.instData.getLsbD 19 = true →
    4 ∈ csrFields C (csrAddr i.instData) →
      (csrOp i.instData).apply (s.csrRead i (csrAddr i.instData)) 0 =
        (csrOp i.instData).apply (s.csrRead i (csrAddr i.instData)) 16

/-! ## The bits of a register -/

theorem getLsbD_bitAt {n : Nat} (b : Bool) (k : Nat) (inside : n < 32) :
    (bitAt n b).getLsbD k = (decide (k = n) && b) := by
  rw [bitAt, bit, BitVec.getLsbD_shiftLeft, BitVec.getLsbD_setWidth, BitVec.getLsbD_ofBool]
  by_cases here : k = n
  · simp [here, inside]
  · by_cases lower : k < n
    · simp [lower, here]
    · have apart : k - n ≠ 0 := by omega
      simp [here, apart]

/-! ## The access in the pipeline -/

end State

/-- The arm of an access. -/
def csrArm (op : CsrOp) (immediate : Bool) : Dec :=
  Dec.csr (match op with | .write => .add | .set => .lOr | .clear => .lNAnd)
    (if immediate then .csrImmmediate else .reg) (if op = .write then .none else .csr)

section Fields

variable (op : CsrOp) (immediate : Bool)

@[simp] theorem csrArm_aluOp : (csrArm op immediate).aluOp =
    match op with | .write => .add | .set => .lOr | .clear => .lNAnd := rfl

@[simp] theorem csrArm_opaSelect : (csrArm op immediate).opaSelect =
    if immediate then .csrImmmediate else .reg := rfl

@[simp] theorem csrArm_opbSelect : (csrArm op immediate).opbSelect =
    if op = .write then .none else .csr := rfl

@[simp] theorem csrArm_csrEn : (csrArm op immediate).csrEn = true := rfl

@[simp] theorem csrArm_writeRd : (csrArm op immediate).writeRd = true := rfl

@[simp] theorem csrArm_rdSelect : (csrArm op immediate).rdSelect = .rdBypass := rfl

@[simp] theorem csrArm_rdBypass : (csrArm op immediate).rdBypass = .csrRvalue := rfl

end Fields

/-- The words of the accesses meet no earlier arm, and each only its own. -/
theorem csrArms_apart : ∀ p ∈ csrWords, (∀ arm ∈ baseArms, ∀ q ∈ arm.1, apart p q = true) ∧
    ∀ q ∈ csrWords, q = p ∨ apart p q = true := by
  decide

section Decode

variable {C : Cfg} {privLvl : PrivLvl} {debug : Bool} {fmode : FmtMode} {inst : BitVec 32}

/-- An access that is not offloaded decodes to its arm. -/
theorem decode_csr (isCsr : inside inst csrWords = true) (scalar : csrAddr inst ≠ CSR_SC)
    (stream : csrAddr inst ≠ CSR_SSR) :
    decode C privLvl debug fmode inst = csrArm (csrOp inst) (csrImmediate inst) := by
  obtain ⟨p, among, met⟩ := List.any_eq_true.mp isCsr
  obtain ⟨base, own⟩ := csrArms_apart p among
  have other : ∀ q ∈ csrWords, q ≠ p → q.test inst = false := fun q word differs =>
    apart_sound ((own q word).resolve_left differs) met
  have base : ∀ arm ∈ baseArms, inside inst arm.1 = false := by
    intro arm member
    rw [inside, List.any_eq_false]
    intro q among
    rw [apart_sound (base arm member q among) met]
    exact Bool.false_ne_true
  rw [decode, decoderArms]
  simp only [List.append_assoc]
  rw [firstMatch_skip _ _ base]
  simp only [csrAddr, ← bne_iff_ne] at scalar stream
  simp only [csrWords, List.mem_cons, List.not_mem_nil, or_false] at among
  have tests : ∀ q ∈ csrWords, q.test inst = decide (q = p) := by
    intro q word
    by_cases same : q = p
    · rw [same, met, decide_eq_true rfl]
    · rw [other q word same, decide_eq_false same]
  simp only [csrWords, List.forall_mem_cons] at tests
  obtain ⟨rw, rwi, rs, rsi, rc, rci, -⟩ := tests
  rcases among with rfl | rfl | rfl | rfl | rfl | rfl <;>
    simp +decide [firstMatch, csrArms, inside, csrArm, csrOp, csrImmediate, rw, rwi, rs, rsi, rc, rci,
      scalar, stream]

end Decode

namespace State

variable {C : Cfg} {P : LsuParts C} {s : State P} {i : Input C}

variable (s i) in
/-- An access to a register with writable state, executed in machine mode. -/
structure CsrExecutes : Prop where
  isCsr : inside i.instData csrWords = true
  writable : csrAddr i.instData ∈ csrWritable
  machine : s.csrs.privLvl = PrivLvlM
  valid : s.validInstr i = true
  ordinary : s.exception i = false

/-- The operand as the core selects it: the immediate is as wide as a register number. -/
def csrSelected (s : State P) (i : Input C) : BitVec 32 :=
  if csrImmediate i.instData then (rs1 (C := C) i).setWidth 32 else s.gpr (rs1 i)

namespace CsrExecutes

variable (run : CsrExecutes s i)

include run

theorem dec_eq : s.dec i = csrArm (csrOp i.instData) (csrImmediate i.instData) := by
  have scalar : CSR_SC ∉ csrWritable := by decide
  have stream : CSR_SSR ∉ csrWritable := by decide
  exact decode_csr run.isCsr (fun here => scalar (here ▸ run.writable))
    fun here => stream (here ▸ run.writable)

theorem access : s.csrEn i = true ∧ s.csrPrivOk i = true := by
  constructor
  · simp [csrEn, run.dec_eq, run.valid]
  · rw [csrPrivOk, run.machine, beq_iff_eq]
    exact BitVec.allOnes_and (w := 2)

theorem rvalue : s.csrRvalue i = s.csrRead i (csrAddr i.instData) := by
  simp [csrRvalue, run.access.1, run.access.2]

/-- The arithmetic unit computes the new value from the old one. -/
theorem alu_eq : s.alu i =
    (csrOp i.instData).apply (s.csrRead i (csrAddr i.instData)) (s.csrSelected i) := by
  have opa : s.opa i = s.csrSelected i := by
    rw [State.opa, run.dec_eq, csrArm_opaSelect, csrSelected]
    cases csrImmediate i.instData <;> rfl
  have opb : s.opb i = if csrOp i.instData = .write then 0 else s.csrRead i (csrAddr i.instData) := by
    rw [State.opb, run.dec_eq, csrArm_opbSelect]
    cases csrOp i.instData <;> first | rfl | exact run.rvalue
  rw [alu, opa, opb, run.dec_eq, csrArm_aluOp]
  cases csrOp i.instData with
  | write =>
    show aluResult (fnOp .add) _ 0 = _
    rw [aluResult_fn]
    exact BitVec.add_zero _
  | set => exact BitVec.or_comm _ _
  | clear => exact BitVec.and_comm _ _

/-- Without an exception nothing is written to the cause. -/
theorem trapCause_eq (old : BitVec 5) : s.trapCause i old = old := by
  have quiet := run.ordinary
  simp only [exception, Bool.or_eq_false_iff] at quiet
  obtain ⟨⟨⟨⟨⟨⟨⟨⟨⟨illegal, ecall⟩, ebreak⟩, interrupt⟩, jump⟩, load⟩, store⟩, csr⟩, data⟩, fetch⟩ := quiet
  rw [Bool.and_comm] at data fetch
  simp [trapCause, causeWrites, lastWrite, illegal, ecall, ebreak, interrupt, jump, load, store, csr,
    data, fetch]

theorem csrs_eq : (s.next i).csrs =
    s.csrWrite false (csrAddr i.instData) (s.alu i) (s.recorded i) := by
  have noTrap : ∀ c, s.trap i c = c := by
    intro c
    rw [trap, trapEntry, run.ordinary, Bool.and_false, run.trapCause_eq]
    cases s.validInstr i <;> rfl
  show s.csrNext i = _
  rw [csrNext_of_csr run.isCsr, noTrap, csrWritten, run.access.1, run.access.2, run.ordinary,
    csrBase_eq (not_system_of_csr run.isCsr EBREAK (by simp))]
  rfl

end CsrExecutes

/-! ## Reading back -/

theorem fmodeWord_fmodeOf (w : BitVec 2) : fmodeWord C (fmodeOf C w) = w := by
  have same : fmodeWord C (fmodeOf C w) =
      BitVec.ofBool (w.getLsbD 1) ++ BitVec.ofBool (w.getLsbD 0) := by
    rw [fmodeWord, fmodeOf]
    split <;> rfl
  rw [same]
  clear same
  revert w
  decide

variable (s) in
/-- What is written to a register is read from its implemented bits, and the others are those of
any state. -/
def ReadsBack (addr : BitVec 12) : Prop :=
  ∀ (t u : State P) (j : Input C) (w : BitVec 32) (c : Csrs C),
    t.csrs = s.csrWrite false addr w c →
      (∀ k ∈ csrFields C addr, (t.csrRead j addr).getLsbD k = w.getLsbD k) ∧
        ∀ k < 32, k ∉ csrFields C addr →
          (t.csrRead j addr).getLsbD k = (u.csrRead j addr).getLsbD k

/-- A register whose lower bits are one field. -/
theorem readsBack_low {addr : BitVec 12} {n : Nat} (field : Csrs C → BitVec n)
    (fields : csrFields C addr = List.range (min 32 n))
    (read : ∀ (t : State P) (j : Input C), t.csrRead j addr = (field t.csrs).setWidth 32)
    (write : ∀ w c, field (s.csrWrite false addr w c) = w.setWidth n) : ReadsBack s addr := by
  intro t u j w c after
  rw [fields, read, read, after, write]
  constructor
  · intro k inside
    obtain ⟨word, below⟩ := Nat.lt_min.mp (List.mem_range.mp inside)
    simp [word, below]
  · intro k word outside
    rw [List.mem_range, Nat.lt_min, not_and] at outside
    have beyond := Nat.le_of_not_lt (outside word)
    simp [BitVec.getLsbD_setWidth, BitVec.getLsbD_of_ge _ k beyond]

theorem readsBack_mstatus : ReadsBack s CSR_MSTATUS := by
  intro t u j w c after
  have written : t.csrs =
      { c with mpp := w.extractLsb' 11 2, spp := w.getLsbD 8, ie := w.getLsbD 3,
               pie := w.getLsbD 7 } := after
  have read : ∀ t : State P, t.csrRead j CSR_MSTATUS = bitAt 31 C.FP_EN ||| bitAt 14 C.FP_EN |||
      bitAt 13 C.FP_EN ||| (t.csrs.mpp.setWidth 32 <<< 11) ||| bitAt 8 t.csrs.spp |||
        bitAt 7 t.csrs.pie ||| bitAt 3 t.csrs.ie := fun _ => rfl
  have fields : csrFields C CSR_MSTATUS = [3, 7, 8, 11, 12] := rfl
  rw [fields, read, read, written]
  constructor
  · simp [getLsbD_bitAt]
  · intro k inside other
    simp only [List.mem_cons, List.not_mem_nil, or_false, not_or] at other
    have level : ∀ p : PrivLvl, ((p.setWidth 32) <<< 11).getLsbD k = false := by
      intro p
      rw [BitVec.getLsbD_shiftLeft, BitVec.getLsbD_setWidth]
      by_cases lower : k < 11
      · simp [lower]
      · rw [BitVec.getLsbD_of_ge p (k - 11) (by omega), Bool.and_false, Bool.and_false]
    simp [getLsbD_bitAt, other, level]

theorem readsBack_mie : ReadsBack s CSR_MIE := by
  intro t u j w c after
  have written : t.csrs =
      { c with eie := ⟨w.getLsbD MEI, w.getLsbD SEI⟩, tie := ⟨w.getLsbD MTI, w.getLsbD STI⟩,
               sie := ⟨w.getLsbD MSI, w.getLsbD SSI⟩, cie := ⟨w.getLsbD MCI, w.getLsbD SCI⟩,
               xie := { c.xie with m := w.getLsbD MXI } } := after
  have read : ∀ t : State P, t.csrRead j CSR_MIE = bitAt MEI t.csrs.eie.m ||| bitAt MTI t.csrs.tie.m |||
      bitAt MSI t.csrs.sie.m ||| bitAt MCI t.csrs.cie.m ||| bitAt MXI t.csrs.xie.m |||
        bitAt SEI t.csrs.eie.s ||| bitAt STI t.csrs.tie.s ||| bitAt SSI t.csrs.sie.s |||
          bitAt SCI t.csrs.cie.s := fun _ => rfl
  have fields : csrFields C CSR_MIE = [MEI, MTI, MSI, MCI, MXI, SEI, STI, SSI, SCI] := rfl
  rw [fields, read, read, written]
  simp only [MEI, MTI, MSI, MCI, MXI, SEI, STI, SSI, SCI]
  constructor
  · simp [getLsbD_bitAt]
  · intro k inside other
    simp only [List.mem_cons, List.not_mem_nil, or_false, not_or] at other
    simp [getLsbD_bitAt, other]

theorem readsBack_mip : ReadsBack s CSR_MIP := by
  intro t u j w c after
  have written : t.csrs =
      { c with seip := w.getLsbD SEI, stip := w.getLsbD STI, ssip := w.getLsbD SSI,
               scip := w.getLsbD SCI } := after
  have read : ∀ t : State P, t.csrRead j CSR_MIP = bitAt MEI j.irq.meip ||| bitAt MTI j.irq.mtip |||
      bitAt MSI j.irq.msip ||| bitAt MCI j.irq.mcip ||| bitAt MXI j.irq.mxip |||
        bitAt SEI t.csrs.seip ||| bitAt STI t.csrs.stip ||| bitAt SSI t.csrs.ssip |||
          bitAt SCI t.csrs.scip := fun _ => rfl
  have fields : csrFields C CSR_MIP = [SEI, STI, SSI, SCI] := rfl
  rw [fields, read, read, written]
  simp only [MEI, MTI, MSI, MCI, MXI, SEI, STI, SSI, SCI]
  constructor
  · simp [getLsbD_bitAt]
  · intro k inside other
    simp only [List.mem_cons, List.not_mem_nil, or_false, not_or] at other
    simp [getLsbD_bitAt, other]

theorem readsBack_mcause : ReadsBack s CSR_MCAUSE := by
  intro t u j w c after
  have written : t.csrs = { c with cause := w.extractLsb' 0 5, causeIrq := w.getLsbD 31 } := after
  have read : ∀ t : State P, t.csrRead j CSR_MCAUSE =
      t.csrs.cause.setWidth 32 ||| bitAt 31 t.csrs.causeIrq := fun _ => rfl
  have fields : csrFields C CSR_MCAUSE = [0, 1, 2, 3, 4, 31] := rfl
  rw [fields, read, read, written]
  constructor
  · simp [getLsbD_bitAt]
  · intro k inside other
    simp only [List.mem_cons, List.not_mem_nil, or_false, not_or] at other
    have cause : ∀ x : BitVec 5, x.getLsbD k = false := fun x =>
      BitVec.getLsbD_of_ge x k (by omega)
    simp [getLsbD_bitAt, other, cause]

theorem readsBack_mtvec : ReadsBack s CSR_MTVEC := by
  intro t u j w c after
  have written : t.csrs = { c with tvec := w.extractLsb' 2 30 } := after
  have read : ∀ t : State P, t.csrRead j CSR_MTVEC = t.csrs.tvec ++ (0 : BitVec 2) := fun _ => rfl
  have fields : csrFields C CSR_MTVEC = (List.range 32).drop 2 := rfl
  have among : ∀ k, k ∈ (List.range 32).drop 2 ↔ 2 ≤ k ∧ k < 32 := by
    intro k
    rw [List.range_eq_range', List.drop_range', List.mem_range'_1]
  rw [fields, read, read, written]
  constructor
  · intro k inside
    obtain ⟨low, word⟩ := (among k).mp inside
    have back : 2 + (k - 2) = k := by omega
    have upper : k - 2 < 30 := by omega
    refine (BitVec.getLsbD_append (x := w.extractLsb' 2 30) (y := (0 : BitVec 2))).trans ?_
    rw [if_neg (Nat.not_lt.mpr low), BitVec.getLsbD_extractLsb', back, decide_eq_true upper,
      Bool.true_and]
  · intro k word outside
    have low : k < 2 := by
      by_contra high
      exact outside ((among k).mpr ⟨Nat.le_of_not_lt high, word⟩)
    have zero : ∀ x : BitVec 30, (x ++ (0 : BitVec 2)).getLsbD k = false := by
      intro x
      rw [BitVec.getLsbD_append, if_pos low]
      simp
    exact (zero _).trans (zero _).symm

theorem extract_low (w : BitVec 32) (n : Nat) : w.extractLsb' 0 n = w.setWidth n := by
  ext k
  simp

/-- A register that is one word. -/
theorem readsBack_word {addr : BitVec 12} (field : Csrs C → BitVec 32)
    (fields : csrFields C addr = List.range 32)
    (read : ∀ (t : State P) (j : Input C), t.csrRead j addr = field t.csrs)
    (write : ∀ w c, field (s.csrWrite false addr w c) = w) : ReadsBack s addr := by
  apply readsBack_low field fields
  · exact fun t j => (read t j).trans (BitVec.setWidth_eq _).symm
  · exact fun w c => (write w c).trans (BitVec.setWidth_eq _).symm

/-- What the registers of the floating-point state read as, where there is one. -/
theorem csrRead_float (present : C.FP_EN = true) (t : State P) (j : Input C) :
    t.csrRead j CSR_FFLAGS = t.csrs.fcsr.fflags.setWidth 32 ∧
      t.csrRead j CSR_FRM = t.csrs.fcsr.frm.setWidth 32 ∧
      t.csrRead j CSR_FMODE = (fmodeWord C t.csrs.fcsr.fmode).setWidth 32 ∧
      t.csrRead j CSR_FCSR = (fmodeWord C t.csrs.fcsr.fmode ++ t.csrs.fcsr.frm ++
        t.csrs.fcsr.fflags).setWidth 32 := by
  simp +decide [csrRead, present]

/-- The registers of the floating-point state. -/
theorem readsBack_float (present : C.FP_EN = true) : ReadsBack s CSR_FFLAGS ∧ ReadsBack s CSR_FRM ∧
    ReadsBack s CSR_FMODE ∧ ReadsBack s CSR_FCSR := by
  have writes : ∀ w (c : Csrs C), s.csrWrite false CSR_FFLAGS w c =
        { c with fcsr := { c.fcsr with fflags := w.extractLsb' 0 5 } } ∧
      s.csrWrite false CSR_FRM w c = { c with fcsr := { c.fcsr with frm := w.extractLsb' 0 3 } } ∧
      s.csrWrite false CSR_FMODE w c =
        { c with fcsr := { c.fcsr with fmode := fmodeOf C (w.extractLsb' 0 2) } } ∧
      s.csrWrite false CSR_FCSR w c =
        { c with fcsr := ⟨fmodeOf C (w.extractLsb' 8 2), w.extractLsb' 5 3,
                          w.extractLsb' 0 5⟩ } := by
    intro w c
    simp +decide [csrWrite, present]
  have reads := csrRead_float (P := P) present
  have assembled : ∀ w : BitVec 32, w.extractLsb' 8 2 ++ w.extractLsb' 5 3 ++ w.extractLsb' 0 5 =
      w.setWidth 10 := by
    intro w
    rw [BitVec.extractLsb'_append_extractLsb'_eq_extractLsb' (by decide),
      BitVec.extractLsb'_append_extractLsb'_eq_extractLsb' (by decide), extract_low]
  refine ⟨?_, ?_, ?_, ?_⟩
  · apply readsBack_low (·.fcsr.fflags) rfl fun t j => (reads t j).1
    intro w c
    rw [(writes w c).1, extract_low]
  · apply readsBack_low (·.fcsr.frm) rfl fun t j => (reads t j).2.1
    intro w c
    rw [(writes w c).2.1, extract_low]
  · apply readsBack_low (fun c => fmodeWord C c.fcsr.fmode) rfl fun t j => (reads t j).2.2.1
    intro w c
    rw [(writes w c).2.2.1, fmodeWord_fmodeOf, extract_low]
  · apply readsBack_low (fun c => fmodeWord C c.fcsr.fmode ++ c.fcsr.frm ++ c.fcsr.fflags) rfl
      fun t j => (reads t j).2.2.2
    intro w c
    rw [(writes w c).2.2.2, fmodeWord_fmodeOf, assembled]

theorem float_present {addr : BitVec 12} (float : addr ∈ [CSR_FFLAGS, CSR_FRM, CSR_FMODE, CSR_FCSR])
    (present : csrAbsent (C := C) addr = false) : C.FP_EN = true := by
  simp only [csrAbsent, Bool.or_eq_false_iff, Bool.and_eq_false_imp, Bool.not_eq_true'] at present
  cases fpEn : C.FP_EN with
  | true => rfl
  | false =>
    have missing := present.2 fpEn
    simp only [List.mem_cons, List.not_mem_nil, or_false] at float
    rcases float with rfl | rfl | rfl | rfl <;> simp at missing

/-- **What is written is read back**, from every register but two. -/
theorem readsBack {addr : BitVec 12} (writable : addr ∈ csrWritable) (sstatus : addr ≠ CSR_SSTATUS)
    (satp : addr ≠ CSR_SATP) (present : csrAbsent (C := C) addr = false) : ReadsBack s addr := by
  simp only [csrWritable, List.mem_cons, List.not_mem_nil, or_false] at writable
  rcases writable with rfl | rfl | rfl | rfl | rfl | rfl | rfl | rfl | rfl | rfl | rfl | rfl | rfl |
    rfl | rfl | rfl | rfl
  · exact readsBack_mstatus
  · exact absurd rfl sstatus
  · exact readsBack_word (·.epc.m) rfl (fun _ _ => rfl) fun _ _ => rfl
  · exact readsBack_word (·.epc.s) rfl (fun _ _ => rfl) fun _ _ => rfl
  · exact readsBack_mie
  · exact readsBack_mip
  · exact readsBack_mcause
  · exact readsBack_mtvec
  · exact readsBack_word (·.scratch.m) rfl (fun _ _ => rfl) fun _ _ => rfl
  · exact readsBack_word (·.scratch.s) rfl (fun _ _ => rfl) fun _ _ => rfl
  · exact absurd rfl satp
  · exact (readsBack_float (float_present (by simp) present)).1
  · exact (readsBack_float (float_present (by simp) present)).2.1
  · exact (readsBack_float (float_present (by simp) present)).2.2.1
  · exact (readsBack_float (float_present (by simp) present)).2.2.2
  · exact readsBack_low (·.mseg) rfl (fun _ _ => rfl) fun _ _ => rfl
  · exact readsBack_word (·.mcast) rfl (fun _ _ => rfl) fun _ _ => rfl

/-! ## The value written is the value specified -/

/-- An access works bit by bit. -/
theorem getLsbD_apply (op : CsrOp) (old operand : BitVec 32) {k : Nat} (word : k < 32) :
    (op.apply old operand).getLsbD k =
      match op with
      | .write => operand.getLsbD k
      | .set => old.getLsbD k || operand.getLsbD k
      | .clear => old.getLsbD k && !operand.getLsbD k := by
  cases op <;> simp [CsrOp.apply, word]

theorem apply_bit {op : CsrOp} {old operand operand' : BitVec 32} {k : Nat} (word : k < 32)
    (same : operand.getLsbD k = operand'.getLsbD k) :
    (op.apply old operand).getLsbD k = (op.apply old operand').getLsbD k := by
  rw [getLsbD_apply _ _ _ word, getLsbD_apply _ _ _ word, same]

/-- A core with sixteen registers selects four bits of an immediate. -/
def lostBit (i : Input C) : Bool :=
  C.RVE && csrImmediate i.instData && i.instData.getLsbD 19

theorem csrSelected_bit {k : Nat} (word : k < 32) (kept : lostBit i = false ∨ k ≠ 4) :
    (s.csrSelected i).getLsbD k = (s.csrOperand i).getLsbD k := by
  unfold csrSelected csrOperand
  split
  · rename_i immediate
    simp only [rs1, BitVec.getLsbD_setWidth, BitVec.getLsbD_extractLsb', Cfg.RegWidth]
    cases narrow : C.RVE with
    | false => rfl
    | true =>
      rw [if_pos rfl]
      by_cases last : k = 4
      · subst last
        have clear : i.instData.getLsbD 19 = false := by
          simpa [lostBit, narrow, immediate] using kept
        simpa using clear
      · have below : decide (k < 4) = decide (k < 5) := by
          rw [decide_eq_decide]
          omega
        rw [below]
  · rfl

theorem csrSelected_lost (lost : lostBit i = true) :
    (s.csrSelected i).getLsbD 4 = false ∧ (s.csrOperand i).getLsbD 4 = true := by
  simp only [lostBit, Bool.and_eq_true] at lost
  obtain ⟨⟨narrow, immediate⟩, top⟩ := lost
  rw [csrSelected, csrOperand, if_pos immediate, if_pos immediate]
  simp [rs1, Cfg.RegWidth, narrow, top]

/-- What is written is what is specified unless the lost bit matters. -/
theorem CsrExecutes.alu_specified (run : CsrExecutes s i) {fields : List Nat}
    (words : ∀ k ∈ fields, k < 32) :
    (∀ k ∈ fields, (s.alu i).getLsbD k = (s.csrSpecified i).getLsbD k) ↔
      (lostBit i = true → 4 ∈ fields →
        (csrOp i.instData).apply (s.csrRead i (csrAddr i.instData)) 0 =
          (csrOp i.instData).apply (s.csrRead i (csrAddr i.instData)) 16) := by
  rw [run.alu_eq, csrSpecified]
  generalize s.csrRead i (csrAddr i.instData) = old
  generalize csrOp i.instData = op
  cases lost : lostBit i with
  | false =>
    refine ⟨fun _ bit => absurd bit Bool.false_ne_true, fun _ k inside => ?_⟩
    exact apply_bit (words k inside) (csrSelected_bit (words k inside) (.inl lost))
  | true =>
    obtain ⟨selected, operand⟩ := csrSelected_lost (s := s) lost
    have low : (op.apply old (s.csrSelected i)).getLsbD 4 = (op.apply old 0).getLsbD 4 :=
      apply_bit (by decide) (by rw [selected]; rfl)
    have high : (op.apply old (s.csrOperand i)).getLsbD 4 = (op.apply old 16).getLsbD 4 :=
      apply_bit (by decide) (by rw [operand]; rfl)
    constructor
    · intro same _ inside
      ext k word
      by_cases four : k = 4
      · subst four
        have bit := same 4 inside
        rw [low, high] at bit
        exact bit
      · apply apply_bit word
        have single : ∀ k < 32, k ≠ 4 → (16 : BitVec 32).getLsbD k = false := by decide
        rw [single k word four]
        exact BitVec.getLsbD_zero
    · intro agree k inside
      by_cases four : k = 4
      · subst four
        rw [low, high, agree rfl inside]
      · exact apply_bit (words k inside) (csrSelected_bit (words k inside) (.inr four))

/-! ## Coherence -/

/-- The destination receives the old value. -/
theorem CsrExecutes.result (run : CsrExecutes s i) (target : rd (C := C) i ≠ 0) :
    (s.next i).gpr (rd i) = s.csrRead i (csrAddr i.instData) := by
  have retires : s.retireI i = true := by
    simpa [retireI, writeRd, run.dec_eq, run.ordinary, run.valid] using target
  have back : s.aluWriteback i = s.csrRead i (csrAddr i.instData) := by
    rw [aluWriteback, run.dec_eq, csrArm_rdSelect]
    exact run.rvalue
  show s.gprNext i (rd i) = _
  rw [gprNext, if_neg target, gprWrite, if_pos retires]
  simp [back]

/-- The two views of the status register show one bit. -/
theorem status_agree (t : State P) (j : Input C) :
    (t.csrRead j CSR_SSTATUS).getLsbD 8 = (t.csrRead j CSR_MSTATUS).getLsbD 8 := by
  have supervisor : t.csrRead j CSR_SSTATUS = bitAt 8 t.csrs.spp := rfl
  have machine : t.csrRead j CSR_MSTATUS = bitAt 31 C.FP_EN ||| bitAt 14 C.FP_EN |||
      bitAt 13 C.FP_EN ||| (t.csrs.mpp.setWidth 32 <<< 11) ||| bitAt 8 t.csrs.spp |||
        bitAt 7 t.csrs.pie ||| bitAt 3 t.csrs.ie := rfl
  rw [supervisor, machine]
  simp only [BitVec.getLsbD_or, getLsbD_bitAt, Nat.reduceLT, BitVec.getLsbD_shiftLeft]
  simp

/-- A field in front of another one, in a wider word. -/
theorem setWidth_append {m n w : Nat} (x : BitVec m) (y : BitVec n) :
    (x ++ y).setWidth w = y.setWidth w ||| x.setWidth w <<< n := by
  apply BitVec.eq_of_getLsbD_eq
  intro k word
  rw [BitVec.getLsbD_or, BitVec.getLsbD_shiftLeft, BitVec.getLsbD_setWidth,
    BitVec.getLsbD_setWidth, BitVec.getLsbD_setWidth, BitVec.getLsbD_append]
  by_cases low : k < n
  · simp [word, low]
  · have beyond : y.getLsbD k = false := BitVec.getLsbD_of_ge y k (Nat.le_of_not_lt low)
    have inside : k - n < w := by omega
    simp [word, low, beyond, inside]

/-- The control and status register of the FPU is its three parts. -/
theorem float_agree (t : State P) (j : Input C) : t.csrRead j CSR_FCSR =
    t.csrRead j CSR_FFLAGS ||| t.csrRead j CSR_FRM <<< 5 ||| t.csrRead j CSR_FMODE <<< 8 := by
  cases present : C.FP_EN with
  | false => simp +decide [csrRead, present]
  | true =>
    simp only [csrRead_float present, setWidth_append, BitVec.shiftLeft_or_distrib,
      ← BitVec.shiftLeft_add, BitVec.or_assoc]

/-! ### The two registers that differ -/

theorem sstatus_bit (t : State P) (j : Input C) (k : Nat) :
    (t.csrRead j CSR_SSTATUS).getLsbD k = (decide (k = 8) && t.csrs.spp) :=
  getLsbD_bitAt _ _ (by decide)

/-- The mode reads behind the page number. -/
theorem satp_bit (t : State P) (j : Input C) {k : Nat} (word : k < 32) :
    (t.csrRead j CSR_SATP).getLsbD k =
      if k < 22 then t.csrs.satp.ppn.getLsbD k else decide (k = 22) && t.csrs.satp.mode := by
  have read : t.csrRead j CSR_SATP =
      (BitVec.ofBool t.csrs.satp.mode ++ t.csrs.satp.ppn).setWidth 32 := rfl
  rw [read, BitVec.getLsbD_setWidth, decide_eq_true word, Bool.true_and, BitVec.getLsbD_append]
  split
  · rfl
  · rename_i high
    rw [BitVec.getLsbD_ofBool]
    have same : (k - 22 = 0) ↔ k = 22 := by omega
    rw [decide_eq_decide.mpr same]

/-- What a write of `satp` leaves. -/
theorem satp_written {t : State P} {w : BitVec 32} {c : Csrs C}
    (after : t.csrs = s.csrWrite false CSR_SATP w c) :
    t.csrs.satp.mode = (C.VMSupport && w.getLsbD 31) ∧ t.csrs.satp.ppn = w.extractLsb' 0 22 := by
  have written : t.csrs = { c with satp := ⟨C.VMSupport && w.getLsbD 31, w.extractLsb' 0 22⟩ } :=
    after
  rw [written]
  exact ⟨rfl, rfl⟩

theorem sstatus_written {t : State P} {w : BitVec 32} {c : Csrs C}
    (after : t.csrs = s.csrWrite false CSR_SSTATUS w c) : t.csrs.spp = s.csrs.spp := by
  have written : t.csrs = { c with spp := s.csrs.spp } := after
  rw [written]

theorem mem_sstatusFields {k : Nat} : k ∈ csrFields C CSR_SSTATUS ↔ k = 8 := List.mem_singleton

theorem mem_satpFields {k : Nat} : k ∈ csrFields C CSR_SATP ↔
    k < 22 ∨ (C.VMSupport = true ∧ k = 31) := by
  have fields : csrFields C CSR_SATP = List.range 22 ++ if C.VMSupport then [31] else [] := rfl
  rw [fields]
  split <;> simp [*]

theorem csrFields_word {addr : BitVec 12} : ∀ k ∈ csrFields C addr, k < 32 := by
  have below : ∀ {n : Nat}, n ≤ 32 → ∀ k ∈ List.range n, k < 32 := fun bound k inside =>
    Nat.lt_of_lt_of_le (List.mem_range.mp inside) bound
  by_cases satp : addr = CSR_SATP
  · subst satp
    intro k inside
    rcases mem_satpFields.mp inside with low | ⟨-, rfl⟩ <;> omega
  · unfold csrFields
    rw [if_neg satp]
    repeat' split
    all_goals first | decide | exact below (Nat.min_le_left ..)

section Executed

variable (run : CsrExecutes s i)

include run

theorem CsrExecutes.readsBack (sstatus : csrAddr i.instData ≠ CSR_SSTATUS)
    (satp : csrAddr i.instData ≠ CSR_SATP) : ReadsBack s (csrAddr i.instData) := by
  apply State.readsBack run.writable sstatus satp
  have legal : s.illegalCsr i = false := by
    have quiet := run.ordinary
    simp only [exception, Bool.or_eq_false_iff] at quiet
    exact quiet.1.1.2
  simpa [illegalCsr, run.access] using legal

/-- The fields of every register but `sstatus` take what is written, except a translation mode. -/
theorem CsrExecutes.takes (sstatus : csrAddr i.instData ≠ CSR_SSTATUS) {t : State P}
    (later : t.csrs = (s.next i).csrs) (j : Input C) {k : Nat}
    (inside : k ∈ csrFields C (csrAddr i.instData))
    (mode : csrAddr i.instData = CSR_SATP → k ≠ 31) :
    (t.csrRead j (csrAddr i.instData)).getLsbD k = (s.alu i).getLsbD k := by
  have after := later.trans run.csrs_eq
  by_cases satp : csrAddr i.instData = CSR_SATP
  · have other := mode satp
    rw [satp] at after inside ⊢
    have low : k < 22 := (mem_satpFields.mp inside).resolve_right fun top => other top.2
    rw [satp_bit t j (by omega), if_pos low, (satp_written after).2, BitVec.getLsbD_extractLsb',
      decide_eq_true low, Nat.zero_add, Bool.true_and]
  · exact (run.readsBack sstatus satp t s j _ _ after).1 k inside

/-- The upper bit is not one an immediate can lose. -/
theorem CsrExecutes.alu_top : (s.alu i).getLsbD 31 = (s.csrSpecified i).getLsbD 31 :=
  (run.alu_specified (show ∀ k ∈ [31], k < 32 by decide)).mpr
    (fun _ four => absurd four (by decide)) 31 (by decide)

/-- A write of `satp` is coherent while the mode is off before and after it. -/
theorem CsrExecutes.mode_iff (satp : csrAddr i.instData = CSR_SATP) :
    (s.csrs.satp.mode = false ∧ (C.VMSupport = true → (s.csrSpecified i).getLsbD 31 = false)) ↔
      (s.next i).csrs.satp.mode = s.csrs.satp.mode ∧
        (C.VMSupport = true → (s.csrSpecified i).getLsbD 31 = false) := by
  have after := run.csrs_eq
  rw [satp] at after
  rw [(satp_written after).1, run.alu_top]
  cases C.VMSupport with
  | false =>
    rw [Bool.false_and]
    exact and_congr_left' eq_comm
  | true =>
    constructor
    · rintro ⟨off, top⟩
      exact ⟨by rw [off, top rfl]; rfl, top⟩
    · rintro ⟨kept, top⟩
      exact ⟨by rw [← kept, top rfl]; rfl, top⟩

end Executed

/-- **An access is coherent exactly where it writes what it specifies.** -/
theorem coherent_iff (run : CsrExecutes s i) : Coherent s i ↔ WritesSpecified s i := by
  have after := run.csrs_eq
  constructor
  · intro coherent
    have fields := coherent.fields (s.next i) i rfl
    have others := coherent.others (s.next i) i rfl
    refine ⟨fun here => ?_, fun here => ?_, fun narrow immediate top four => ?_⟩
    · rw [here] at after fields
      have bit := fields 8 (mem_sstatusFields.mpr rfl)
      rw [sstatus_bit, sstatus_written after] at bit
      exact bit.symm
    · apply (run.mode_iff here).mpr
      rw [here] at fields others
      have kept := others 22 (by decide) (by rw [mem_satpFields]; omega)
      rw [satp_bit _ _ (by decide), satp_bit _ _ (by decide)] at kept
      refine ⟨kept, fun support => ?_⟩
      have bit := fields 31 (mem_satpFields.mpr (.inr ⟨support, rfl⟩))
      rw [satp_bit _ _ (by decide)] at bit
      exact bit.symm
    · have lost : lostBit i = true := by
        rw [lostBit, narrow, immediate, top]
        rfl
      have other : csrAddr i.instData ≠ CSR_SSTATUS := fun here => by
        rw [here, mem_sstatusFields] at four
        exact absurd four (by decide)
      refine (run.alu_specified (show ∀ k ∈ [4], k < 32 by decide)).mp ?_ lost (by decide)
      intro k only
      obtain rfl := List.mem_singleton.mp only
      rw [← run.takes other rfl i four fun _ => by decide]
      exact fields _ four
  · intro specified
    have same := (run.alu_specified csrFields_word).mpr fun lost four => by
      simp only [lostBit, Bool.and_eq_true] at lost
      exact specified.immediate lost.1.1 lost.1.2 lost.2 four
    refine ⟨run.result, fun t j later k inside => ?_, fun t j later k word outside => ?_,
      fun t j _ => status_agree t j, fun t j _ => float_agree t j⟩
    · by_cases sstatus : csrAddr i.instData = CSR_SSTATUS
      · have bit := specified.spp sstatus
        have kept := later.trans after
        rw [sstatus] at kept inside ⊢
        obtain rfl := mem_sstatusFields.mp inside
        rw [sstatus_bit, sstatus_written kept, bit]
        rfl
      · by_cases mode : csrAddr i.instData = CSR_SATP ∧ k = 31
        · obtain ⟨satp, rfl⟩ := mode
          rw [satp] at inside ⊢
          have support := ((mem_satpFields.mp inside).resolve_left (by decide)).1
          rw [satp_bit _ _ (by decide), (specified.mode satp).2 support]
          rfl
        · rw [run.takes sstatus later j inside fun satp top => mode ⟨satp, top⟩]
          exact same k inside
    · by_cases sstatus : csrAddr i.instData = CSR_SSTATUS
      · rw [sstatus] at outside ⊢
        have other : k ≠ 8 := fun eight => outside (mem_sstatusFields.mpr eight)
        rw [sstatus_bit, sstatus_bit, decide_eq_false other, Bool.false_and, Bool.false_and]
      · by_cases satp : csrAddr i.instData = CSR_SATP
        · have off := (run.mode_iff satp).mp (specified.mode satp)
          rw [satp] at outside ⊢
          rw [mem_satpFields] at outside
          rw [satp_bit _ _ word, satp_bit _ _ word, later, off.1]
          rw [if_neg fun low => outside (.inl low), if_neg fun low => outside (.inl low)]
        · exact (run.readsBack sstatus satp t s j _ _ (later.trans after)).2 k word outside

/-- A core with a value in its second register. -/
def loaded (value : BitVec 32) : State smallParts :=
  { State.reset smallParts with gpr := fun r => if r = 2 then value else 0 }

/-- A write of `mscratch`. -/
theorem coherent_mscratch : Coherent (loaded 5) { instData := 0x340110f3 } :=
  (coherent_iff ⟨by decide, by decide, by decide, by decide, by decide⟩).mpr
    ⟨fun here => absurd here (by decide), fun here => absurd here (by decide),
      fun narrow => absurd narrow (by decide)⟩

/-- **The supervisor's view does not write, and the mode moves.**  Setting the previous privilege
level through `sstatus` leaves it clear in both views; a mode written to `satp` at bit 31 reads
at bit 22. -/
theorem status_and_satp_incoherent :
    CsrExecutes (loaded 0x100) { instData := 0x10012073 } ∧
      ((loaded 0x100).next { instData := 0x10012073 }).csrRead { instData := 0 } CSR_SSTATUS = 0 ∧
      ¬Coherent (loaded 0x100) { instData := 0x10012073 } ∧
      CsrExecutes (loaded 0x80000001) { instData := 0x18011073 } ∧
      ((loaded 0x80000001).next { instData := 0x18011073 }).csrRead { instData := 0 } CSR_SATP =
        0x00400001 ∧
      ¬Coherent (loaded 0x80000001) { instData := 0x18011073 } := by
  refine ⟨⟨by decide, by decide, by decide, by decide, by decide⟩, by decide, fun coherent => ?_,
    ⟨by decide, by decide, by decide, by decide, by decide⟩, by decide, fun coherent => ?_⟩
  · exact absurd (coherent.fields _ { instData := 0 } rfl 8 (by decide)) (by decide)
  · exact absurd (coherent.fields _ { instData := 0 } rfl 31 (by decide)) (by decide)

end State

end SnitchCluster.Core
