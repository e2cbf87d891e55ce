/-
# Tcdm.WideNarrowMux -- narrow ports, a wide port and an external port on the banks

`mem_wide_narrow_mux` picks by static priority: the wide port, then the external port, then
each narrow port on its own bank.  The ready signal of a narrow port is that of its bank; the
other two are told that their request is taken whenever they are picked.  The module asks
for banks that are ready while the wide port is valid, but asks nothing of them while the
external port is, so an external request is acknowledged to banks that did not take it.

A run is correct when in each cycle what is acknowledged is with its banks and these are
ready, so that a bank has taken from a port what was acknowledged to it (`Correct`).  That is
so exactly if the banks are ready whenever the external port is picked (`correct_iff`).
-/
import SnitchCluster.Reqrsp.Package

namespace SnitchCluster.Tcdm

open Reqrsp (AmoOp)

/-- The parameters: `NrPorts` narrow words make a wide one. -/
structure WideNarrow where
  AddrWidth : Nat
  UserWidth : Nat
  NarrowStrbWidth : Nat
  NrPorts : Nat

namespace WideNarrow

variable (P : WideNarrow)

def NarrowDataWidth : Nat := P.NarrowStrbWidth * 8

/-- A request channel for `n` narrow words. -/
structure ReqChan (n : Nat) where
  addr : BitVec P.AddrWidth
  write : Bool
  amo : AmoOp
  data : BitVec (n * P.NarrowDataWidth)
  strb : BitVec (n * P.NarrowStrbWidth)
  user : BitVec P.UserWidth
  deriving DecidableEq

structure Req (n : Nat) where
  q : ReqChan P n
  qValid : Bool

/-- The inputs of a cycle: the requests and the responses of the banks. -/
structure In where
  inNarrowReq : Fin P.NrPorts → Req P 1
  inWideReq : Req P P.NrPorts
  inExtReq : Req P P.NrPorts
  outReady : Fin P.NrPorts → Bool
  outData : Fin P.NrPorts → BitVec P.NarrowDataWidth

variable {P}

/-- The part of a wide request for bank `k`. -/
def ReqChan.slice (q : ReqChan P P.NrPorts) (k : Fin P.NrPorts) : ReqChan P 1 where
  addr := q.addr
  write := q.write
  amo := .AMONone
  data := q.data.extractLsb' (k * P.NarrowDataWidth) (1 * P.NarrowDataWidth)
  strb := q.strb.extractLsb' (k * P.NarrowStrbWidth) (1 * P.NarrowStrbWidth)
  user := q.user

namespace In

variable (i : In P) (k : Fin P.NrPorts)

/-! ## Forward channel -/

/-- `out_req_o[k]` -/
def outReq : Req P 1 :=
  if i.inWideReq.qValid then { qValid := i.inWideReq.qValid, q := i.inWideReq.q.slice k }
  else if i.inExtReq.qValid then { qValid := i.inExtReq.qValid, q := i.inExtReq.q.slice k }
  else i.inNarrowReq k

/-! ## Backward channel -/

/-- `in_narrow_rsp_o[k].q_ready` -/
def narrowReady : Bool :=
  if i.inWideReq.qValid then false else if i.inExtReq.qValid then false else i.outReady k

/-- `in_wide_rsp_o.q_ready`: set in the loop over the banks. -/
def wideReady : Bool := i.inWideReq.qValid && decide (0 < P.NrPorts)

/-- `in_ext_rsp_o.q_ready` -/
def extReady : Bool := !i.inWideReq.qValid && i.inExtReq.qValid && decide (0 < P.NrPorts)

/-- `in_narrow_rsp_o[k].p.data`, and that word of the two wide responses. -/
def pData : BitVec P.NarrowDataWidth := i.outData k

end In

/-! ## What the ports are told -/

inductive Port (P : WideNarrow)
  | narrow (k : Fin P.NrPorts)
  | wide
  | ext
  deriving DecidableEq

namespace Port

/-- Whether the port addresses the bank. -/
def Addresses (k : Fin P.NrPorts) : Port P → Prop
  | narrow j => j = k
  | wide | ext => True

instance (k : Fin P.NrPorts) (p : Port P) : Decidable (p.Addresses k) := by
  cases p <;> unfold Addresses <;> infer_instance

/-- The port's request is acknowledged. -/
def acked (i : In P) : Port P → Bool
  | narrow j => (i.inNarrowReq j).qValid && i.narrowReady j
  | wide => i.inWideReq.qValid && i.wideReady
  | ext => i.inExtReq.qValid && i.extReady

/-- What the port asks of a bank. -/
def request (i : In P) (k : Fin P.NrPorts) : Port P → ReqChan P 1
  | narrow j => (i.inNarrowReq j).q
  | wide => i.inWideReq.q.slice k
  | ext => i.inExtReq.q.slice k

/-- The port whose request a bank sees. -/
def driver (i : In P) (k : Fin P.NrPorts) : Port P :=
  if i.inWideReq.qValid then wide else if i.inExtReq.qValid then ext else narrow k

end Port

namespace In

variable (i : In P)

/-- A request that is acknowledged is with each bank it addresses, and the bank is ready. -/
def Presented : Prop :=
  ∀ p : Port P, p.acked i = true → ∀ k, p.Addresses k →
    (i.outReq k).qValid = true ∧ (i.outReq k).q = p.request i k ∧ i.outReady k = true

/-- No narrow request is acknowledged while another port drives its bank. -/
def Silent : Prop := ∀ k, (Port.narrow k).acked i = true → Port.driver i k = .narrow k

/-- The module's requirement: the banks are ready while the wide port is valid. -/
def GrantsWide : Prop := i.inWideReq.qValid = true → ∀ k, i.outReady k = true

/-- The banks are ready when the external port is picked. -/
def GrantsExt : Prop :=
  i.inWideReq.qValid = false → i.inExtReq.qValid = true → ∀ k, i.outReady k = true

/-- What bank `k` takes in the cycle, and from whom. -/
def taken (k : Fin P.NrPorts) : List (Port P × ReqChan P 1) :=
  if (i.outReq k).qValid && i.outReady k then [(Port.driver i k, (i.outReq k).q)] else []

end In

/-! ## Runs -/

section Runs

variable (run : Nat → In P)

/-- What a bank has taken from a port before cycle `n`. -/
def takenFrom (n : Nat) (k : Fin P.NrPorts) (p : Port P) : List (ReqChan P 1) :=
  (List.range n).flatMap fun t => ((run t).taken k).filterMap fun a =>
    if a.1 = p then some a.2 else none

/-- What has been acknowledged to a port before cycle `n`, as far as a bank is concerned. -/
def ackedTo (n : Nat) (k : Fin P.NrPorts) (p : Port P) : List (ReqChan P 1) :=
  (List.range n).flatMap fun t => if p.acked (run t) then [p.request (run t) k] else []

/-- A correct run: each acknowledgement is true, no narrow port is acknowledged out of turn,
and a bank has taken from each port that addresses it what was acknowledged, once and in order. -/
structure Correct : Prop where
  presented : ∀ t, (run t).Presented
  silent : ∀ t, (run t).Silent
  reaches : ∀ n k (p : Port P), p.Addresses k → takenFrom run n k p = ackedTo run n k p

end Runs

/-! ## A cycle -/

section Cycle

variable {i : In P} {k : Fin P.NrPorts} {p : Port P}

/-- The bank sees the request of its driver. -/
theorem outReq_driver : (i.outReq k).q = (Port.driver i k).request i k := by
  unfold In.outReq Port.driver
  cases i.inWideReq.qValid with
  | true => rfl
  | false => cases i.inExtReq.qValid <;> rfl

theorem silent : i.Silent := by
  intro k acked
  simp only [Port.acked, In.narrowReady, Port.driver] at acked ⊢
  cases wide : i.inWideReq.qValid with
  | true => simp [wide] at acked
  | false =>
    cases ext : i.inExtReq.qValid with
    | true => simp [wide, ext] at acked
    | false => rfl

/-- Only the driver of a bank is acknowledged. -/
theorem driver_of_acked (addresses : p.Addresses k) (acked : p.acked i = true) :
    Port.driver i k = p := by
  cases p with
  | narrow j =>
    obtain rfl : j = k := addresses
    exact silent j acked
  | wide =>
    have valid : i.inWideReq.qValid = true := (Bool.and_eq_true_iff.mp acked).1
    rw [Port.driver, if_pos valid]
  | ext =>
    simp only [Port.acked, In.extReady, Bool.and_eq_true, Bool.not_eq_true'] at acked
    obtain ⟨valid, ⟨unpicked, -⟩, -⟩ := acked
    rw [Port.driver, unpicked, valid]
    rfl

/-- The driver is acknowledged if its request is valid and, for a narrow port, the bank ready. -/
theorem acked_driver : (Port.driver i k).acked i =
    ((i.outReq k).qValid && (i.inWideReq.qValid || i.inExtReq.qValid || i.outReady k)) := by
  have several : 0 < P.NrPorts := Nat.lt_of_le_of_lt (Nat.zero_le k.val) k.isLt
  unfold In.outReq Port.driver
  cases wide : i.inWideReq.qValid with
  | true => simp [Port.acked, In.wideReady, wide, several]
  | false =>
    cases ext : i.inExtReq.qValid with
    | true => simp [Port.acked, In.extReady, wide, ext, several]
    | false => simp [Port.acked, In.narrowReady, wide, ext]

theorem ready_of_acked (granted : i.GrantsWide) (waits : i.GrantsExt)
    (acked : (Port.driver i k).acked i = true) : i.outReady k = true := by
  rw [acked_driver] at acked
  cases wide : i.inWideReq.qValid with
  | true => exact granted wide k
  | false =>
    cases ext : i.inExtReq.qValid with
    | true => exact waits wide ext k
    | false => simpa [wide, ext] using (Bool.and_eq_true_iff.mp acked).2

theorem presented_of_waits (granted : i.GrantsWide) (waits : i.GrantsExt) : i.Presented := by
  intro p acked k addresses
  have drives := driver_of_acked addresses acked
  rw [← drives] at acked
  refine ⟨?_, by rw [outReq_driver, drives], ready_of_acked granted waits acked⟩
  rw [acked_driver] at acked
  exact (Bool.and_eq_true_iff.mp acked).1

theorem waits_of_presented (several : 0 < P.NrPorts) (presented : i.Presented) : i.GrantsExt := by
  intro unpicked valid k
  have acked : Port.ext.acked i = true := by
    simp [Port.acked, In.extReady, unpicked, valid, several]
  exact (presented .ext acked k trivial).2.2

/-- A bank takes from a port what is acknowledged to it. -/
theorem taken_eq (granted : i.GrantsWide) (waits : i.GrantsExt) (addresses : p.Addresses k) :
    ((i.taken k).filterMap fun a => if a.1 = p then some a.2 else none) =
      if p.acked i then [p.request i k] else [] := by
  by_cases drives : Port.driver i k = p
  · have ready : (Port.driver i k).acked i = ((i.outReq k).qValid && i.outReady k) := by
      cases acked : (Port.driver i k).acked i with
      | true =>
        rw [ready_of_acked granted waits acked, Bool.and_true]
        rw [acked_driver] at acked
        exact (Bool.and_eq_true_iff.mp acked).1.symm
      | false =>
        rw [acked_driver] at acked
        cases valid : (i.outReq k).qValid with
        | false => rfl
        | true =>
          rw [valid, Bool.true_and, Bool.or_eq_false_iff] at acked
          exact acked.2.symm
    rw [In.taken, outReq_driver, drives, ← drives, ready]
    cases (i.outReq k).qValid && i.outReady k with
    | true => simp
    | false => simp
  · have quiet : p.acked i = false := by
      rw [← Bool.not_eq_true]
      exact fun acked => drives (driver_of_acked addresses acked)
    rw [quiet, In.taken]
    cases (i.outReq k).qValid && i.outReady k with
    | true => simp [drives]
    | false => simp

end Cycle

/-- **A run is correct exactly if the banks are ready whenever the external port is picked.** -/
theorem correct_iff (P : WideNarrow) (several : 1 ≤ P.NrPorts) (run : Nat → In P)
    (granted : ∀ t, (run t).GrantsWide) : Correct run ↔ ∀ t, (run t).GrantsExt := by
  constructor
  · exact fun correct t => waits_of_presented several (correct.presented t)
  · intro waits
    refine ⟨fun t => presented_of_waits (granted t) (waits t), fun _ => silent, ?_⟩
    intro n k p addresses
    refine List.flatMap_congr fun t _ => ?_
    exact taken_eq (granted t) (waits t) addresses

/-! ## An external write to a busy bank -/

/-- Two banks of bytes. -/
def twoBanks : WideNarrow where
  AddrWidth := 4
  UserWidth := 1
  NarrowStrbWidth := 1
  NrPorts := 2

/-- An external write while the banks answer `ready`. -/
def extWrite (ready : Fin 2 → Bool) : In twoBanks where
  inNarrowReq _ := { qValid := false, q := ⟨0, false, .AMONone, 0, 0, 0⟩ }
  inWideReq := { qValid := false, q := ⟨0, false, .AMONone, 0, 0, 0⟩ }
  inExtReq := { qValid := true, q := ⟨3, true, .AMONone, 0xab12, 3, 0⟩ }
  outReady := ready
  outData _ := 0

theorem correct_ready : Correct fun _ => extWrite fun _ => true :=
  (correct_iff twoBanks (by decide) _ fun _ wide => absurd wide Bool.false_ne_true).mpr
    fun _ _ _ _ => rfl

/-- **An external write is acknowledged while a bank is busy**: of the two bytes one is lost. -/
theorem ext_write_lost :
    (∀ t : Nat, ((fun _ => extWrite fun k => k = 0) t).GrantsWide) ∧
      Port.ext.acked (extWrite fun k => k = 0) = true ∧
      (extWrite fun k => k = 0).outReady (1 : Fin 2) = false ∧
      ¬Correct fun _ => extWrite fun k => k = 0 := by
  refine ⟨fun _ wide => absurd wide Bool.false_ne_true, rfl, rfl, fun correct => ?_⟩
  exact absurd (correct.presented 0 .ext rfl (1 : Fin 2) trivial).2.2 Bool.false_ne_true

end WideNarrow

end SnitchCluster.Tcdm
