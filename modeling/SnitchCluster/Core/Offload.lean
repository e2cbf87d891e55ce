/-
# Core.Offload -- floating-point accesses and the address queue

A floating-point load or store leaves the core twice in one cycle: as an
instruction on the accelerator port and as an address pushed into the CAQ, where
it waits for its completion.  The two handshakes and the stall are written
separately.  Here each is reduced to what it asks for (`snoopPush_eq`,
`fpOffload_eq`, `stall_of_fpAccess`); the difference says when a stale address
is pushed and when an access is dropped.
-/
import SnitchCluster.Core.Pipeline
import SnitchCluster.Theory.Clocked

namespace SnitchCluster.Core

open Theory
open Instr

namespace State

variable {C : Cfg} {P : LsuParts C} {s : State P} {i : Input C}

variable (s i) in
/-- An address enters the queue: `caq_qvalid & caq_qready`. -/
def snoopPush : Bool := s.caqQvalid i && s.caqQready i

variable (s i) in
/-- A floating-point access is handed to the accelerator. -/
def fpOffload : Bool := s.caqEna i && (s.accQvalid i && i.accQready)

/-! ## The cycle of a floating-point access -/

theorem lsuTlbQvalid_of_caqEna (access : s.caqEna i = true) : s.lsuTlbQvalid i = false := by
  obtain ⟨noLoad, noStore, -⟩ := (s.dec_exclusive i).fpAccess access
  simp [lsuTlbQvalid, noLoad, noStore]

theorem nonaccStall_of_caqEna (access : s.caqEna i = true) :
    s.nonaccStall i = !s.validInstr i := by
  obtain ⟨-, -, noFence, noFenceI, -⟩ := (s.dec_exclusive i).fpAccess access
  simp [nonaccStall, lsuStall, fenceStall, flushIValid, lsuTlbQvalid_of_caqEna access, noFence,
    noFenceI]

theorem accQvalid_of_caqEna (access : s.caqEna i = true) : s.accQvalid i =
    (s.validInstr i && (s.transReady i && s.caqQready i) && !s.exception i) := by
  obtain ⟨-, -, -, -, offloads, -⟩ := (s.dec_exclusive i).fpAccess access
  have gated : (s.dec i).accQgated = true := (s.dec_exclusive i).gated.trans access
  simp [accQvalid, offloads, gated]

/-- The push asks for a valid access, a ready accelerator and room. -/
theorem snoopPush_eq : s.snoopPush i =
    (s.caqEna i && s.validInstr i && s.caqQready i && i.accQready) := by
  cases access : s.caqEna i with
  | false => simp [snoopPush, caqQvalid, access]
  | true =>
    simp only [snoopPush, caqQvalid, access, nonaccStall_of_caqEna access, Bool.not_not,
      Bool.true_and]
    ac_rfl

/-- The offload asks for a translation and no exception besides. -/
theorem fpOffload_eq : s.fpOffload i =
    (s.snoopPush i && (s.transReady i && !s.exception i)) := by
  rw [snoopPush_eq, fpOffload]
  cases access : s.caqEna i with
  | false => simp
  | true =>
    rw [accQvalid_of_caqEna access]
    ac_rfl

/-- The stall of a valid access forgets the translation. -/
theorem stall_of_fpAccess (access : s.caqEna i = true) (valid : s.validInstr i = true) :
    s.stall i = (s.accWaits i || s.caqWaits i) := by
  rw [stall, nonaccStall_of_caqEna access, valid]
  rfl

theorem npc_of_fpAccess (access : s.caqEna i = true) (ordinary : s.exception i = false)
    (moves : s.stall i = false) : s.npc i = s.pc + 4 := by
  obtain ⟨-, -, -, -, -, noBranch, next, -⟩ := (s.dec_exclusive i).fpAccess access
  simp [npc, advance_eq, moves, nextPc, ordinary, next, consecPc, noBranch]

/-! ## Pushes are paired with offloads -/

variable (s i) in
/-- A push without its offload: the access misses its translation or traps. -/
def straySnoop : Bool :=
  s.caqEna i && s.validInstr i && s.caqQready i && i.accQready &&
    (!s.transReady i || s.exception i)

theorem straySnoop_eq : s.straySnoop i = (s.snoopPush i && !s.fpOffload i) := by
  rw [fpOffload_eq, straySnoop, ← snoopPush_eq]
  cases s.snoopPush i <;> cases s.transReady i <;> simp

/-- Push and offload agree in every cycle but those of a stray snoop. -/
theorem snoopPush_iff_fpOffload : s.snoopPush i = s.fpOffload i ↔ s.straySnoop i = false := by
  rw [straySnoop_eq, fpOffload_eq]
  cases s.snoopPush i <;> simp

/-- What the address queue sees of a cycle. -/
structure CaqEvent where
  offload : Bool
  completion : Bool
  deriving DecidableEq, Repr

variable (P) in
/-- The core, observed at the address queue. -/
def caqMachine : Machine (State P) (Input C) CaqEvent where
  obs s i := ⟨s.fpOffload i, i.caqPvalid⟩
  next s i := s.next i

def offloads (past : List CaqEvent) : Nat := past.countP CaqEvent.offload

def completions (past : List CaqEvent) : Nat := past.countP CaqEvent.completion

/-- A completion answers an earlier offload, and no snoop is stray. -/
def pairedEnv : Machine.Env (State P) (Input C) CaqEvent := fun past s i =>
  (i.caqPvalid = true → completions past < offloads past) ∧ s.straySnoop i = false

section Queue

variable {contents : P.caq.State → List (BitVec (C.CaqTagWidth + 1))}

theorem caqEna_enabled (access : s.caqEna i = true) : C.FP_EN = true := by
  obtain ⟨-, -, -, -, -, -, -, enabled⟩ := (s.dec_exclusive i).fpAccess access
  exact enabled

section

variable (lawful : P.caq.Lawful C.CaqDepth contents)
    (answered : i.caqPvalid = true → contents s.lsu.caq ≠ [])
    (absent : C.FP_EN = false → i.caqPvalid = false)

include lawful answered absent

/-- One cycle: the completion takes the oldest address, the push adds its own. -/
theorem caq_contents_next : contents (s.next i).lsu.caq =
      (if i.caqPvalid then (contents s.lsu.caq).tail else contents s.lsu.caq) ++
        if s.snoopPush i then [LsuState.caqEntry C (s.dec i).isFpStore (s.lsPaddr i)] else [] := by
  cases enabled : C.FP_EN with
  | false =>
    have still : (s.next i).lsu.caq = s.lsu.caq := by simp [next, LsuState.next, enabled]
    have noPush : s.snoopPush i = false := by
      cases access : s.caqEna i with
      | false => simp [snoopPush_eq, access]
      | true => rw [caqEna_enabled access] at enabled; contradiction
    rw [still, absent enabled, noPush, if_neg Bool.false_ne_true, if_neg Bool.false_ne_true,
      List.append_nil]
  | true =>
    have moves := lawful.next s.lsu.caq (s.caqQvalid i)
      (LsuState.caqEntry C (s.dec i).isFpStore (s.lsPaddr i)) i.caqPvalid answered
    have cell : (s.next i).lsu.caq = P.caq.next s.lsu.caq (s.caqQvalid i)
        (LsuState.caqEntry C (s.dec i).isFpStore (s.lsPaddr i)) i.caqPvalid := by
      simp [next, LsuState.next, caqReq, enabled]
    have push : (s.caqQvalid i && P.caq.grant s.lsu.caq i.caqPvalid) = s.snoopPush i := by
      simp [snoopPush, caqQready, LsuState.caqQready, enabled]
    rw [cell, moves, push]

/-- One cycle: the queue grows by the push and shrinks by the completion. -/
theorem caq_length_next : (contents (s.next i).lsu.caq).length + i.caqPvalid.toNat =
      (contents s.lsu.caq).length + (s.snoopPush i).toNat := by
  rw [caq_contents_next lawful answered absent, List.length_append]
  cases popped : i.caqPvalid with
  | false => cases s.snoopPush i <;> rfl
  | true =>
    have stored := List.length_pos_of_ne_nil (answered popped)
    cases s.snoopPush i <;> simp <;> omega

end

/-- Over a run without stray snoops, the queue holds the accesses offloaded and
not yet completed. -/
theorem caq_length_of_reaches (lawful : P.caq.Lawful C.CaqDepth contents)
    {past : List CaqEvent} {s : State P}
    (reached : (caqMachine P).Reaches pairedEnv (State.reset P) past s) :
    (contents s.lsu.caq).length + completions past = offloads past ∧
      (C.FP_EN = false → contents s.lsu.caq = []) := by
  refine reached.invariant (fun past s => (contents s.lsu.caq).length + completions past =
    offloads past ∧ (C.FP_EN = false → contents s.lsu.caq = [])) ?_ ?_
  · have empty : contents (State.reset P).lsu.caq = [] := lawful.init
    simp [empty, completions, offloads]
  · intro past s i _ inv admitted
    obtain ⟨count, bare⟩ := inv
    obtain ⟨answers, straight⟩ := admitted
    have paired : s.snoopPush i = s.fpOffload i := snoopPush_iff_fpOffload.mpr straight
    have answered : i.caqPvalid = true → contents s.lsu.caq ≠ [] := by
      intro completes none
      have earlier := answers completes
      rw [none] at count
      simp only [List.length_nil] at count
      omega
    have absent : C.FP_EN = false → i.caqPvalid = false := by
      intro disabled
      cases completes : i.caqPvalid with
      | false => rfl
      | true => exact absurd (bare disabled) (answered completes)
    have step := caq_length_next lawful answered absent
    constructor
    · simp only [completions, offloads, List.countP_append, List.countP_singleton, caqMachine]
      simp only [completions, offloads] at count
      rw [paired] at step
      cases completes : i.caqPvalid <;> cases hands : s.fpOffload i <;>
        simp [completes, hands] at step ⊢ <;> omega
    · intro disabled
      have still : (s.next i).lsu.caq = s.lsu.caq := by simp [next, LsuState.next, disabled]
      rw [show (caqMachine P).next s i = s.next i from rfl, still]
      exact bare disabled

/-- **Pushes are paired with offloads exactly in the cycles without a stray
snoop; in runs of such cycles the queue holds what is still outstanding and
drains with the completions.** -/
theorem caq_paired (lawful : P.caq.Lawful C.CaqDepth contents) :
    (∀ (s : State P) (i : Input C), s.snoopPush i = s.fpOffload i ↔ s.straySnoop i = false) ∧
      ∀ (past : List CaqEvent) (s : State P),
        (caqMachine P).Reaches pairedEnv (State.reset P) past s →
          completions past ≤ offloads past ∧
            (contents s.lsu.caq).length = offloads past - completions past ∧
            (C.FP_EN = true → completions past = offloads past → s.lsu.caqEmpty = true) := by
  refine ⟨fun s i => snoopPush_iff_fpOffload, fun past s reached => ?_⟩
  obtain ⟨count, -⟩ := caq_length_of_reaches lawful reached
  refine ⟨by omega, by omega, fun enabled drained => ?_⟩
  have none : contents s.lsu.caq = [] := List.length_eq_zero_iff.mp (by omega)
  simpa [LsuState.caqEmpty, enabled] using (lawful.empty_iff _).mpr none

end Queue

/-! ### A stray snoop -/

/-- `flw f0, 0(x0)`, interrupted or not. -/
def flwIn (irq : Bool) : Input smallCfg where
  instData := 0x00002007
  irq := { meip := irq }

/-- The external interrupt is enabled, in machine mode. -/
def interruptibleFp : State smallParts :=
  { State.reset smallParts with csrs := { ie := true, eie := ⟨true, false⟩, tvec := 0x800 } }

theorem smallCaq_lawful :
    smallParts.caq.Lawful smallCfg.CaqDepth fun s : List (BitVec (0 + 1)) => s :=
  IdQueue.ofList_lawful _ _

/-- One offloaded load, not yet completed, is one entry. -/
theorem caq_paired_flw :
    (((State.reset smallParts).next (flwIn false)).lsu.caq : List (BitVec (0 + 1))).length = 1 := by
  have reached : (caqMachine smallParts).Reaches pairedEnv (State.reset smallParts)
      ((caqMachine smallParts).trace (State.reset smallParts) [flwIn false])
      ((State.reset smallParts).next (flwIn false)) :=
    (caqMachine smallParts).reaches_run _ [flwIn false] ⟨⟨by decide, by decide⟩, trivial⟩
  exact ((caq_paired smallCaq_lawful).2 _ _ reached).2.1.trans (by decide)

/-- **An interrupted load leaves a stale address.**  Its push is not withdrawn with
its offload, and a FENCE in the handler then waits for a completion that never
comes. -/
theorem interrupted_flw_strays :
    interruptibleFp.snoopPush (flwIn true) = true ∧
      interruptibleFp.fpOffload (flwIn true) = false ∧
      (let s₁ := interruptibleFp.next (flwIn true)
       (s₁.lsu.caq : List (BitVec (0 + 1))).length = 1 ∧
         s₁.stall { instData := 0x0000000f } = true) := by
  decide

/-! ## No floating-point access is dropped or duplicated -/

variable (s i) in
/-- A floating-point access the core moves past is handed over in that cycle, and
one handed over is moved past. -/
def HandedOver : Prop :=
  s.caqEna i = true →
    (s.validInstr i = true → s.exception i = false → s.stall i = false →
        s.npc i = s.pc + 4 → s.fpOffload i = true) ∧
      (s.fpOffload i = true → s.stall i = false ∧ s.npc i = s.pc + 4)

variable (s i) in
/-- A valid access that misses its translation while the queue has room. -/
def dropped : Bool :=
  s.caqEna i && s.validInstr i && !s.exception i && s.caqQready i && !s.transReady i

/-- **A floating-point access is handed over exactly once unless it misses its
translation while the address queue has room.** -/
theorem handedOver_iff : HandedOver s i ↔ s.dropped i = false := by
  constructor
  · intro handed
    by_contra missed
    simp only [dropped, Bool.not_eq_false, Bool.and_eq_true, Bool.not_eq_true'] at missed
    obtain ⟨⟨⟨⟨access, valid⟩, ordinary⟩, room⟩, miss⟩ := missed
    have moves : s.stall i = false := by
      simp [stall_of_fpAccess access valid, accWaits, caqWaits, accQvalid_of_caqEna access,
        miss, room]
    have offloaded := (handed access).1 valid ordinary moves
      (npc_of_fpAccess access ordinary moves)
    simp [fpOffload_eq, miss] at offloaded
  · intro kept access
    constructor
    · intro valid ordinary moves _
      rw [stall_of_fpAccess access valid, Bool.or_eq_false_iff] at moves
      obtain ⟨acc, caq⟩ := moves
      have room : s.caqQready i = true := by simpa [caqWaits, access] using caq
      have hit : s.transReady i = true := by
        simpa [dropped, access, valid, ordinary, room] using kept
      have ready : i.accQready = true := by
        simpa [accWaits, accQvalid_of_caqEna access, valid, ordinary, room, hit] using acc
      simp [fpOffload_eq, snoopPush_eq, access, valid, ordinary, room, hit, ready]
    · intro offloaded
      rw [fpOffload_eq, snoopPush_eq] at offloaded
      simp only [Bool.and_eq_true, Bool.not_eq_true'] at offloaded
      obtain ⟨⟨⟨⟨-, valid⟩, room⟩, ready⟩, -, ordinary⟩ := offloaded
      have moves : s.stall i = false := by
        simp [stall_of_fpAccess access valid, accWaits, caqWaits, room, ready]
      exact ⟨moves, npc_of_fpAccess access ordinary moves⟩

/-! ### A dropped load -/

/-- User mode under translation: the code page is mapped, no data page is. -/
def translated : State smallParts :=
  { State.reset smallParts with
    csrs := { privLvl := PrivLvlU, satp := { mode := true } }
    itlb := { tagValid := fun _ => true, tag := fun _ => { va := 1 },
              pte := fun _ => { flags := { a := true, u := true, x := true, r := true } } } }

/-- **A load that misses its translation is dropped.**  The core goes on to the
next instruction, and the load never reaches the accelerator. -/
theorem missed_flw_dropped :
    ¬HandedOver translated (flwIn false) ∧
      (translated.next (flwIn false)).pc = translated.pc + 4 := by
  refine ⟨fun handed => ?_, by decide⟩
  have offloaded := (handed (by decide)).1 (by decide) (by decide) (by decide) (by decide)
  exact absurd offloaded (by decide)

end State

end SnitchCluster.Core
