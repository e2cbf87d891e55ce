/-
# Core.Permissions -- who may access a page, and what a fault stops

The check of the level-zero buffers asks for the read permission where the access is not
marked as a read, and not where it is.  The core marks loads and atomics as reads, stores as
writes, fetches as executions and floating-point accesses as nothing.  An integer access that
faults still raises its request, since `lsu_qvalid` waits for the translation only.  So a page
is checked as the instruction set has it for a floating-point load, and for every other access
if the page has what `Sound` asks (`permissions_iff`).
-/
import SnitchCluster.Core.Offload
import SnitchCluster.Core.Precise

namespace SnitchCluster.Core

open Theory
open Instr

/-! ## The check of the instruction set -/

/-- The accesses of the core: by the fetch unit, the integer pipeline and the FPU.  A load with
reservation is a load. -/
inductive PageAccess
  | fetch | load | store | amo | fpLoad | fpStore
  deriving DecidableEq, Repr

/-- The accesses of the integer pipeline, on the data port. -/
def PageAccess.integer : PageAccess → Bool
  | .load | .store | .amo => true
  | _ => false

/-- The access is one that the level may make to the page at all. -/
def PteFlags.level (f : PteFlags) (lvl : PrivLvl) : Bool :=
  f.a && (if lvl == PrivLvlU then f.u else !f.u)

/-- Sv32 with `SUM` and `MXR` zero. -/
def PteFlags.permits (f : PteFlags) (lvl : PrivLvl) : PageAccess → Bool
  | .fetch => f.level lvl && f.x
  | .load | .fpLoad => f.level lvl && f.r
  | .store | .amo | .fpStore => f.level lvl && (f.w && f.d)

/-- What the check of the buffers takes for a permission: a read is not checked, anything else
is checked for one. -/
def PteFlags.accepts (f : PteFlags) (lvl : PrivLvl) : PageAccess → Bool
  | .fetch => f.level lvl && (f.x && f.r)
  | .load | .amo => f.level lvl
  | .store => f.level lvl && (f.w && f.d && f.r)
  | .fpLoad | .fpStore => f.level lvl && f.r

/-- The flags for which the check denies what the instruction set denies, and what it denies
raises no request.  `taken` says that the load-store unit has room for the access. -/
def PteFlags.Sound (f : PteFlags) (lvl : PrivLvl) (taken : Bool) : PageAccess → Prop
  | .fetch => f.level lvl = true → f.x = true → f.r = true
  | .load => (f.level lvl = true → f.r = true) ∧ (taken = true → f.level lvl = true)
  | .store => (f.permits lvl .store = true → f.r = true) ∧
      (taken = true → f.permits lvl .store = true)
  | .amo => (f.level lvl = true → f.w = true ∧ f.d = true) ∧
      (taken = true → f.level lvl = true)
  | .fpLoad => True
  | .fpStore => f.level lvl = true → (f.r = true ↔ f.w = true ∧ f.d = true)

/-- `Sound` compares the two checks. -/
theorem PteFlags.sound_iff {f : PteFlags} {lvl : PrivLvl} {taken : Bool} {k : PageAccess} :
    f.Sound lvl taken k ↔ f.accepts lvl k = f.permits lvl k ∧
      (k.integer = true → taken = true → f.accepts lvl k = true) := by
  cases k with
  | fetch =>
    simp only [Sound, accepts, permits, PageAccess.integer]
    cases f.level lvl <;> cases f.x <;> simp
  | load =>
    simp only [Sound, accepts, permits, PageAccess.integer]
    cases f.level lvl <;> cases f.r <;> simp
  | store =>
    simp only [Sound, accepts, permits, PageAccess.integer]
    cases f.level lvl <;> cases f.w <;> cases f.d <;> cases f.r <;> simp
  | amo =>
    simp only [Sound, accepts, permits, PageAccess.integer]
    cases f.level lvl <;> cases f.w <;> cases f.d <;> simp
  | fpLoad => simp [Sound, accepts, permits, PageAccess.integer]
  | fpStore =>
    simp only [Sound, accepts, permits, PageAccess.integer]
    cases f.level lvl <;> cases f.w <;> cases f.d <;> cases f.r <;> simp

/-- `pte.flags` of the entries that hit. -/
def Tlb.flags {ppn entries : Nat} (t : Tlb ppn entries) (va : Va) : PteFlags where
  d := t.flag va PteFlags.d
  a := t.flag va PteFlags.a
  u := t.flag va PteFlags.u
  x := t.flag va PteFlags.x
  w := t.flag va PteFlags.w
  r := t.flag va PteFlags.r

/-- The check for the three ways in which an access may be marked. -/
theorem Tlb.accessAllowed_eq {ppn entries : Nat} {t : Tlb ppn entries} {p : TlbPort ppn}
    (lvl : p.privLvl = PrivLvlU ∨ p.privLvl = PrivLvlS) :
    t.accessAllowed p =
      ((t.flags p.va).level p.privLvl && (!p.execute || (t.flags p.va).x) &&
        (!p.write || ((t.flags p.va).w && (t.flags p.va).d)) && (p.read || (t.flags p.va).r)) := by
  unfold accessAllowed PteFlags.level flags
  rcases lvl with user | supervisor
  · rw [user]
    cases p.execute <;> cases p.write <;> cases p.read <;> simp [PrivLvlU, PrivLvlS] <;> grind
  · rw [supervisor]
    cases p.execute <;> cases p.write <;> cases p.read <;> simp [PrivLvlU, PrivLvlS] <;> grind

/-! ## The accesses of a cycle -/

namespace State

variable {C : Cfg} {P : LsuParts C} (s : State P) (i : Input C)

/-- The atomic operations that store. -/
def storesAtomically : Bool := (s.dec i).lsAmo != .amoNone && (s.dec i).lsAmo != .amoLR

/-- The access is made in this cycle, and its page hits. -/
def Issues : PageAccess → Prop
  | .fetch => s.itlbTransValid = true
  | .load => s.dtlbTransValid i = true ∧ (s.dec i).isLoad = true ∧ s.storesAtomically i = false
  | .store => s.dtlbTransValid i = true ∧ (s.dec i).isStore = true
  | .amo => s.dtlbTransValid i = true ∧ (s.dec i).isLoad = true ∧ s.storesAtomically i = true
  | .fpLoad => s.dtlbTransValid i = true ∧ (s.dec i).isFpLoad = true
  | .fpStore => s.dtlbTransValid i = true ∧ (s.dec i).isFpStore = true

/-- The page-fault output of the buffer that translates the access. -/
def faults : PageAccess → Bool
  | .fetch => s.itlbPageFault i
  | _ => s.dtlbPageFault i

/-- The flags of the page. -/
def pageFlags : PageAccess → PteFlags
  | .fetch => s.itlb.flags s.itlbVa
  | _ => s.dtlb.flags (s.dtlbVa i)

/-- The access reaches the memory: on the data port, or through the FPU. -/
def requests : PageAccess → Bool
  | .fetch => false
  | .load | .store | .amo => s.dataQvalid i
  | .fpLoad | .fpStore => s.accQvalid i

/-- A fault is what the instruction set denies, and a data access that faults raises no
request. -/
structure Checked (k : PageAccess) : Prop where
  fault : s.faults i k = true ↔ (s.pageFlags i k).permits s.csrs.privLvl k = false
  stopped : s.faults i k = true → s.requests i k = false

variable {s i}

/-! ## What the decoder marks -/

/-- The system arms access no data. -/
theorem systemArms_load (privLvl : PrivLvl) (debug : Bool) :
    ∀ arm ∈ systemArms privLvl debug, arm.2.isLoad = true → arm.2.isStore = false := by
  simp only [systemArms, List.forall_mem_cons]
  refine ⟨by decide, by decide, ?_, ?_, ?_, by decide, by decide, ?_, ?_, by simp⟩
  all_goals
    split
    · decide
    · simp

/-- A load is no store. -/
theorem dec_load : (s.dec i).isLoad = true → (s.dec i).isStore = false :=
  decode_all _ _ _ _ _ (Q := fun d => d.isLoad = true → d.isStore = false) (by decide)
    (systemArms_load _ _) (by decide)

theorem dec_store (store : (s.dec i).isStore = true) : (s.dec i).isLoad = false := by
  cases load : (s.dec i).isLoad with
  | false => rfl
  | true => exact absurd (dec_load load) (by simp [store])

/-! ## A hit of the data buffer -/

section Hit

variable (hit : s.dtlbTransValid i = true)

include hit

/-- A hit is of an aligned integer access, or of a floating-point access. -/
theorem active_of_hit : s.transActive = true ∧ s.dtlbReady i = true ∧
    (s.lsuTlbQvalid i = true ∨ (s.dec i).isFpLoad = true ∨ (s.dec i).isFpStore = true) := by
  simp only [dtlbTransValid, dtlbValid, Bool.and_eq_true, Bool.or_eq_true] at hit
  obtain ⟨⟨active, valid⟩, ready⟩ := hit
  refine ⟨active, ready, ?_⟩
  rcases valid with ⟨integer, -⟩ | ⟨float, -⟩
  · exact Or.inl integer
  · exact Or.inr float

theorem vm_of_hit : C.VMSupport = true := by
  obtain ⟨-, ready, -⟩ := active_of_hit hit
  simp only [dtlbReady, Bool.and_eq_true] at ready
  exact ready.1

/-- The fault of the data buffer, by what the core marks. -/
theorem dtlbPageFault_eq (lvl : s.csrs.privLvl = PrivLvlU ∨ s.csrs.privLvl = PrivLvlS) :
    s.dtlbPageFault i =
      !(((s.dtlb.flags (s.dtlbVa i)).level s.csrs.privLvl) &&
        (!(s.dec i).isStore ||
          ((s.dtlb.flags (s.dtlbVa i)).w && (s.dtlb.flags (s.dtlbVa i)).d)) &&
        ((s.dec i).isLoad || (s.dtlb.flags (s.dtlbVa i)).r)) := by
  have checked := Tlb.accessAllowed_eq (t := s.dtlb) (p := s.dtlbPort i) lvl
  rw [dtlbPageFault, vm_of_hit hit, Tlb.pageFault, checked]
  simp [dtlbPort]

/-- An integer access that hits raises its request, fault or not. -/
theorem dataQvalid_of_hit (access : ((s.dec i).isLoad || (s.dec i).isStore) = true) :
    s.dataQvalid i = s.lsuAccepts i := by
  obtain ⟨active, ready, integer | float⟩ := active_of_hit hit
  · simp [dataQvalid_eq, integer, transReady, active, ready]
  · obtain ⟨noLoad, noStore, -⟩ := (s.dec_exclusive i).access access
    simp [noLoad, noStore] at float

/-- A floating-point access that faults is not offloaded. -/
theorem accQvalid_of_fault (fault : s.dtlbPageFault i = true) : s.accQvalid i = false := by
  apply accQvalid_of_exception
  simp [exception, fault, hit]

end Hit

/-! ## The check of the core -/

theorem itlbPageFault_eq (lvl : s.csrs.privLvl = PrivLvlU ∨ s.csrs.privLvl = PrivLvlS)
    (hit : s.itlbTransValid = true) :
    s.itlbPageFault i = !((s.itlb.flags s.itlbVa).accepts s.csrs.privLvl .fetch) := by
  have present : C.VMSupport = true := by
    simp only [itlbTransValid, itlbReady, Bool.and_eq_true] at hit
    exact hit.2.1
  have checked := Tlb.accessAllowed_eq (t := s.itlb) (p := s.itlbPort i) lvl
  rw [itlbPageFault, present, Tlb.pageFault, checked]
  simp [itlbPort, PteFlags.accepts, Bool.and_assoc]

variable {k : PageAccess}

/-- The kinds of access, by what the core marks. -/
theorem faults_eq (lvl : s.csrs.privLvl = PrivLvlU ∨ s.csrs.privLvl = PrivLvlS)
    (issued : s.Issues i k) :
    s.faults i k = !((s.pageFlags i k).accepts s.csrs.privLvl k) := by
  cases k with
  | fetch => exact itlbPageFault_eq lvl issued
  | load =>
    obtain ⟨hit, load, -⟩ := issued
    simp [faults, pageFlags, PteFlags.accepts, dtlbPageFault_eq hit lvl, load, dec_load load]
  | store =>
    obtain ⟨hit, store⟩ := issued
    simp [faults, pageFlags, PteFlags.accepts, dtlbPageFault_eq hit lvl, store,
      dec_store store, Bool.or_assoc]
  | amo =>
    obtain ⟨hit, load, -⟩ := issued
    simp [faults, pageFlags, PteFlags.accepts, dtlbPageFault_eq hit lvl, load, dec_load load]
  | fpLoad =>
    obtain ⟨hit, load⟩ := issued
    obtain ⟨noLoad, noStore, -⟩ := (s.dec_exclusive i).fpAccess (by simp [load])
    simp [faults, pageFlags, PteFlags.accepts, dtlbPageFault_eq hit lvl, noLoad, noStore]
  | fpStore =>
    obtain ⟨hit, store⟩ := issued
    obtain ⟨noLoad, noStore, -⟩ := (s.dec_exclusive i).fpAccess (by simp [store])
    simp [faults, pageFlags, PteFlags.accepts, dtlbPageFault_eq hit lvl, noLoad, noStore]

/-- A fault stops no integer access and every other. -/
theorem requests_of_fault (issued : s.Issues i k) (fault : s.faults i k = true) :
    s.requests i k = (k.integer && s.lsuAccepts i) := by
  cases k with
  | fetch => rfl
  | load =>
    obtain ⟨hit, load, -⟩ := issued
    simp [requests, PageAccess.integer, dataQvalid_of_hit hit (by simp [load])]
  | store =>
    obtain ⟨hit, store⟩ := issued
    simp [requests, PageAccess.integer, dataQvalid_of_hit hit (by simp [store])]
  | amo =>
    obtain ⟨hit, load, -⟩ := issued
    simp [requests, PageAccess.integer, dataQvalid_of_hit hit (by simp [load])]
  | fpLoad => simpa [requests, PageAccess.integer] using accQvalid_of_fault issued.1 fault
  | fpStore => simpa [requests, PageAccess.integer] using accQvalid_of_fault issued.1 fault

/-- **The buffers check a page as the instruction set does, and stop what it denies, exactly
if the page is sound for the access.** -/
theorem permissions_iff (lvl : s.csrs.privLvl = PrivLvlU ∨ s.csrs.privLvl = PrivLvlS)
    (issued : s.Issues i k) :
    s.Checked i k ↔ (s.pageFlags i k).Sound s.csrs.privLvl (s.lsuAccepts i) k := by
  have fault := faults_eq lvl issued
  rw [PteFlags.sound_iff]
  constructor
  · intro checked
    have denied := checked.fault
    rw [fault] at denied
    constructor
    · cases accepted : (s.pageFlags i k).accepts s.csrs.privLvl k <;> simp_all
    · intro integer taken
      by_contra refused
      have faulting : s.faults i k = true := by simpa [fault] using refused
      have silent := checked.stopped faulting
      rw [requests_of_fault issued faulting, integer, taken] at silent
      contradiction
  · intro ⟨agree, stops⟩
    constructor
    · rw [fault, agree, Bool.not_eq_true']
    · intro faulting
      rw [requests_of_fault issued faulting]
      rw [fault, Bool.not_eq_true'] at faulting
      cases integer : k.integer with
      | false => rfl
      | true =>
        by_contra taken
        have accepted := stops integer (by simpa using taken)
        rw [faulting] at accepted
        contradiction

/-! ### Pages that are not sound -/

/-- User mode under translation, with one data page. -/
def mapped (f : PteFlags) : State smallParts :=
  { translated with dtlb := { tagValid := fun _ => true, pte := fun _ => { flags := f } } }

/-- An instruction that the cache delivers. -/
def fetched (inst : BitVec 32) : Input smallCfg where
  instData := inst

/-- A store to a page that may be read and written is checked. -/
theorem permissions_iff_store :
    (mapped { d := true, a := true, u := true, w := true, r := true }).Checked
      (fetched 0x00002023) .store :=
  (permissions_iff (k := .store) (Or.inl rfl) ⟨by decide, by decide⟩).mpr ⟨by decide, by decide⟩

/-- **A load reads a page without read permission**, and a store to a page that is not dirty
raises its request although it faults. -/
theorem unreadable_loaded :
    ¬(mapped { a := true, u := true }).Checked (fetched 0x00002003) .load ∧
      ¬(mapped { a := true, u := true, w := true, r := true }).Checked (fetched 0x00002023)
        .store := by
  constructor
  · intro checked
    exact absurd (checked.fault.mpr (by decide)) (by decide)
  · intro checked
    exact absurd (checked.stopped (by decide)) (by decide)

end State

end SnitchCluster.Core
