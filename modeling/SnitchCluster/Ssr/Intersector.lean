/-
# Ssr.Intersector -- merging and intersecting two index streams

`snitch_ssr_intersector`: two masters present increasing indices, which are compared
and answered in the same cycle; a slave receives the indices that pass, and a queue
tells the stream controller when the streams go on and when they are done.  Nothing
but that queue is stored.

A master that is done drives whatever its index lane still holds.  The comparison
does not know, so a leftover index that equals the other master's passes for a match
(`Stale`).  `merges_until_stale`: a run hands out the sorted union, each index with
what either stream lacks, exactly as long as that does not happen.
-/
import SnitchCluster.Ssr.Indirector
import SnitchCluster.Theory.Clocked
import SnitchCluster.Theory.Merge

namespace SnitchCluster.Ssr

open Theory

/-- The cell and the sizes: `streamctl` is the queue of done flags. -/
structure IsectParts where
  IndexWidth : Nat
  StreamctlDepth : Nat
  streamctl : LawfulFifo Bool StreamctlDepth

/-- `isect_mst_req_t`, of the intersector's index width. -/
structure MstReq (W : Nat) where
  merge : Bool := false
  slvEna : Bool := false
  idx : BitVec W := 0
  done : Bool := false
  valid : Bool := false

/-- `isect_slv_rsp_t`. -/
structure SlvRsp (W : Nat) where
  idx : BitVec W
  done : Bool
  valid : Bool

structure Intersector (P : IsectParts) where
  streamctl : P.streamctl.State

def Intersector.init (P : IsectParts) : Intersector P := ⟨P.streamctl.init⟩

/-- The inputs of a cycle; `mst` gives the request of master 0 at `false`. -/
structure IsectIn (P : IsectParts) where
  mst : Bool → MstReq P.IndexWidth
  slvReq : IsectSlvReq := {}
  streamctlReady : Bool := false

/-! ## Comparison -/

namespace IsectIn

variable {P : IsectParts} (i : IsectIn P)

def isectMatch : Bool := (i.mst true).idx == (i.mst false).idx

def isectMslag : Bool := decide ((i.mst true).idx < (i.mst false).idx)

def mergeEna : Bool := (i.mst true).merge && (i.mst false).merge

def mstSlvEna : Bool := (i.mst true).slvEna || (i.mst false).slvEna

/-- `isect_done`: nothing can be emitted any more. -/
def isectDone : Bool :=
  if i.mergeEna then (i.mst false).done && (i.mst true).done
  else (i.mst false).done || (i.mst true).done

def isectEna : Bool := i.mergeEna || i.isectMatch || i.isectDone

def metaEna : Bool := !i.isectMatch && !i.isectDone

def srcValid : Bool := (i.mst false).valid && (i.mst true).valid

def dstSlvReady : Bool := !i.mstSlvEna || (i.slvReq.ena && i.slvReq.ready)

/-- `isect_msout`: the master that lags behind, unless it is done. -/
def isectMsout : Bool :=
  if (i.mst true).done then false else if (i.mst false).done then true else i.isectMslag

end IsectIn

namespace Intersector

variable {P : IsectParts} (s : Intersector P) (i : IsectIn P)

/-! ## Handshakes -/

def dstStrReady : Bool := !P.streamctl.full s.streamctl

def dstAllReady : Bool := i.dstSlvReady && s.dstStrReady

def mstZero (m : Bool) : Bool :=
  i.metaEna && i.mergeEna && if m then !i.isectMsout else i.isectMsout

def mstSkip (m : Bool) : Bool :=
  i.metaEna && !i.mergeEna && if m then i.isectMsout else !i.isectMsout

/-- `mst_rsp_o`. -/
def mstRsp (m : Bool) : IsectMstRsp where
  zero := mstZero i m
  skip := mstSkip i m
  done := i.isectDone
  ready := i.srcValid && s.dstAllReady i && (i.isectEna || mstZero i m || mstSkip i m)

/-- `slv_rsp_o`. -/
def slvRsp : SlvRsp P.IndexWidth where
  idx := (i.mst i.isectMsout).idx
  done := i.isectDone
  valid := i.srcValid && s.dstStrReady && i.isectEna && i.slvReq.ena

/-- The queue for the stream controller is offered a done flag. -/
def strValid : Bool := i.srcValid && i.dstSlvReady && i.isectEna

def streamctlValid : Bool := !P.streamctl.empty s.streamctl

def streamctlDone : Bool := P.streamctl.data s.streamctl

def mstHs (m : Bool) : Bool := (i.mst m).valid && (s.mstRsp i m).ready

def slvHs : Bool := (s.slvRsp i).valid && i.slvReq.ready

def strHs : Bool := strValid i && s.dstStrReady

def streamctlHs : Bool := s.streamctlValid && i.streamctlReady

def next : Intersector P :=
  ⟨P.streamctl.next s.streamctl false (s.strHs i) i.isectDone (s.streamctlHs i)⟩

/-- The leftover index of the master that is done alone equals the index of the
other. -/
def Stale : Prop := ((i.mst false).done ≠ (i.mst true).done) ∧ i.isectMatch = true

instance : Decidable (Stale i) := inferInstanceAs (Decidable (_ ∧ _))

/-! ## Runs -/

/-- What a cycle shows: the answers the masters take, the index or the end the slave
receives, the flags that enter and leave the queue, and a handshake on a stale
index. -/
structure Obs (W : Nat) where
  mst : Bool → Option IsectMstRsp
  slv : Option (Option (BitVec W))
  pushed : Option Bool
  popped : Option Bool
  stale : Bool

def machine (P : IsectParts) : Machine (Intersector P) (IsectIn P) (Obs P.IndexWidth) where
  obs s i :=
    { mst := fun m => if s.mstHs i m then some (s.mstRsp i m) else none
      slv := if s.slvHs i then
          some (if i.isectDone then none else some (s.slvRsp i).idx)
        else none
      pushed := if s.strHs i then some i.isectDone else none
      popped := if s.streamctlHs i then some s.streamctlDone else none
      stale := s.mstHs i false && decide (Stale i) }
  next := next

section Past

variable {W : Nat} (past : List (Obs W))

/-- The answers a master has taken. -/
def answers (m : Bool) : List IsectMstRsp := past.filterMap fun o => o.mst m

/-- What the slave has received, `none` for the end. -/
def received : List (Option (BitVec W)) := past.filterMap Obs.slv

def pushed : List Bool := past.filterMap Obs.pushed

def popped : List Bool := past.filterMap Obs.popped

/-- How many indices a master has moved past. -/
def position (m : Bool) : Nat := ((answers past m).filter fun r => !r.zero && !r.done).length

/-- The masters have been told that both are done. -/
def finished : Bool := (answers past false).any IsectMstRsp.done

end Past

/-- The indices a stream still has to present. -/
def rest {W : Nat} (stream : Bool → List (BitVec W)) (past : List (Obs W)) (m : Bool) :
    List (BitVec W) :=
  (stream m).drop (position past m)

/-- A master presents the head of its stream, or that it is done, and then any
index. -/
def Presents {W : Nat} (req : MstReq W) : List (BitVec W) → Prop
  | [] => req.done = true
  | x :: _ => req.done = false ∧ req.idx = x

instance {W : Nat} (req : MstReq W) : ∀ stream, Decidable (Presents req stream)
  | [] => inferInstanceAs (Decidable (_ = _))
  | _ :: _ => inferInstanceAs (Decidable (_ ∧ _))

/-- Two streams are presented for a merge, each index until it is taken, and then the
end; valid comes and goes.  `slvEna` says whether the masters enable the slave. -/
def merging (stream : Bool → List (BitVec P.IndexWidth)) (slvEna : Bool) :
    Machine.Env (Intersector P) (IsectIn P) (Obs P.IndexWidth) := fun past _ i =>
  (∀ m, (i.mst m).merge = true ∧ Presents (i.mst m) (rest stream past m) ∧
      (finished past = true → (i.mst m).valid = false)) ∧
    i.mstSlvEna = slvEna

instance (stream : Bool → List (BitVec P.IndexWidth)) (slvEna : Bool) (past : List (Obs P.IndexWidth))
    (s : Intersector P) (i : IsectIn P) : Decidable (merging stream slvEna past s i) :=
  inferInstanceAs (Decidable (_ ∧ _))

/-! ## What a merge hands out -/

section Agenda

variable {W : Nat}

/-- The items of a merge: the union, and the end. -/
def agenda (stream : Bool → List (BitVec W)) : List (Option (Merged (BitVec W))) :=
  (merged (stream false) (stream true)).map some ++ [none]

theorem agenda_end {R : Bool → List (BitVec W)} (spent : R false = [] ∧ R true = []) :
    agenda R = [none] := by
  rw [agenda, spent.1, spent.2, merged_nil]
  rfl

/-- What a master is to be told: a zero for an index that it lacks. -/
def answer (m : Bool) : Option (Merged (BitVec W)) → IsectMstRsp
  | some e => { zero := if m then e.missing1 else e.missing0, ready := true }
  | none => { done := true, ready := true }

/-- What the slave is to receive. -/
def slaveItem : Option (Merged (BitVec W)) → Option (BitVec W) := Option.map Merged.value

/-- A run hands out the items in order, each to both masters, the slave and the
queue at once. -/
structure Merges (stream : Bool → List (BitVec P.IndexWidth)) (slvEna : Bool)
    (past : List (Obs P.IndexWidth)) (s : Intersector P) : Prop where
  master : ∀ m, answers past m <+: (agenda stream).map (answer m)
  slave : slvEna = true → received past <+: (agenda stream).map slaveItem
  control : pushed past <+: (agenda stream).map Option.isNone
  together : ∀ m, (answers past m).length = (pushed past).length
  together_slave : slvEna = true → (received past).length = (pushed past).length
  complete : finished past = true → (pushed past).length = (agenda stream).length
  queue : popped past ++ P.streamctl.contents s.streamctl = pushed past

end Agenda

/-! ## One handshake of a merge -/

section Handshake

variable {s : Intersector P} {i : IsectIn P} {R : Bool → List (BitVec P.IndexWidth)}

/-- The index handed out. -/
def selected (i : IsectIn P) : BitVec P.IndexWidth := (i.mst i.isectMsout).idx

theorem mergeEna_of_all (merge : ∀ m, (i.mst m).merge = true) : i.mergeEna = true := by
  rw [IsectIn.mergeEna, merge, merge]
  rfl

/-- Both masters, the slave if enabled, and the queue move together. -/
theorem mstHs_merging (merge : i.mergeEna = true) (m : Bool) :
    s.mstHs i m = (i.srcValid && s.dstAllReady i) := by
  have all : (s.mstRsp i m).ready = (i.srcValid && s.dstAllReady i) := by
    show (_ && (i.isectEna || _ || _)) = _
    rw [IsectIn.isectEna, merge]
    simp
  rw [mstHs, all, IsectIn.srcValid]
  cases m <;> cases (i.mst false).valid <;> cases (i.mst true).valid <;> rfl

theorem strHs_merging (merge : i.mergeEna = true) :
    s.strHs i = (i.srcValid && s.dstAllReady i) := by
  rw [strHs, strValid, IsectIn.isectEna, merge, dstAllReady]
  simp [Bool.and_assoc]

theorem slvHs_merging (merge : i.mergeEna = true) (ena : i.mstSlvEna = true) :
    s.slvHs i = (i.srcValid && s.dstAllReady i) := by
  show (i.srcValid && s.dstStrReady && i.isectEna && i.slvReq.ena && i.slvReq.ready) = _
  rw [IsectIn.isectEna, merge, dstAllReady, IsectIn.dstSlvReady, ena]
  cases i.srcValid <;> cases s.dstStrReady <;> cases i.slvReq.ena <;> cases i.slvReq.ready <;> rfl

variable (merge : ∀ m, (i.mst m).merge = true) (presents : ∀ m, Presents (i.mst m) (R m))

include presents

theorem done_iff (m : Bool) : (i.mst m).done = true ↔ R m = [] := by
  have presented := presents m
  cases stream : R m with
  | nil =>
    rw [stream] at presented
    exact ⟨fun _ => rfl, fun _ => presented⟩
  | cons x rest =>
    rw [stream] at presented
    obtain ⟨running, _⟩ := presented
    rw [running]
    simp

theorem idx_of_cons {m : Bool} {x : BitVec P.IndexWidth} {A : List (BitVec P.IndexWidth)}
    (stream : R m = x :: A) : (i.mst m).done = false ∧ (i.mst m).idx = x := by
  have presented := presents m
  rwa [stream] at presented

/-- What is at hand: one master is done and the other leads, or both present an
index and the lesser leads. -/
theorem at_hand (some : R false ≠ [] ∨ R true ≠ []) :
    (∃ y B, R false = [] ∧ R true = y :: B ∧ (i.mst false).done = true ∧
        (i.mst true).done = false ∧ i.isectMsout = true ∧ selected i = y) ∨
      (∃ x A, R false = x :: A ∧ R true = [] ∧ (i.mst false).done = false ∧
        (i.mst true).done = true ∧ i.isectMsout = false ∧ selected i = x) ∨
      ∃ x A y B, R false = x :: A ∧ R true = y :: B ∧ (i.mst false).done = false ∧
        (i.mst true).done = false ∧ i.isectMsout = decide (y < x) ∧
        selected i = (if y < x then y else x) ∧ i.isectMatch = (y == x) := by
  unfold selected IsectIn.isectMsout
  cases first : R false with
  | nil =>
    have over0 := (done_iff presents false).mpr first
    cases second : R true with
    | nil =>
      rcases some with some | some
      · exact absurd first some
      · exact absurd second some
    | cons y B =>
      obtain ⟨running, idx⟩ := idx_of_cons presents second
      left
      refine ⟨y, B, rfl, rfl, over0, running, ?_, ?_⟩
      · rw [running, over0]
        rfl
      · rw [running, over0]
        exact idx
  | cons x A =>
    obtain ⟨running0, idx0⟩ := idx_of_cons presents first
    cases second : R true with
    | nil =>
      have over1 := (done_iff presents true).mpr second
      right; left
      refine ⟨x, A, rfl, rfl, running0, over1, ?_, ?_⟩
      · rw [over1]
        rfl
      · rw [over1]
        exact idx0
    | cons y B =>
      obtain ⟨running1, idx1⟩ := idx_of_cons presents second
      have order : i.isectMslag = decide (y < x) := by
        rw [IsectIn.isectMslag, idx0, idx1]
      right; right
      refine ⟨x, A, y, B, rfl, rfl, running0, running1, ?_, ?_, ?_⟩
      · rw [running1, running0]
        exact order
      · rw [running1, running0, if_neg Bool.false_ne_true, if_neg Bool.false_ne_true, order]
        by_cases lag : y < x
        · rw [if_pos lag, decide_eq_true lag]
          exact idx1
        · rw [if_neg lag, decide_eq_false lag]
          exact idx0
      · rw [IsectIn.isectMatch, idx0, idx1]

/-- The index handed out is the least of those at hand. -/
theorem selected_least (increasing : ∀ m, Increasing (R m)) (some : R false ≠ [] ∨ R true ≠ []) :
    (∀ m, ∀ a ∈ R m, selected i ≤ a) ∧ (selected i ∈ R false ∨ selected i ∈ R true) := by
  have head : ∀ m x A, R m = x :: A → ∀ a ∈ R m, x ≤ a := by
    intro m x A stream a member
    have sorted := increasing m
    rw [stream] at sorted member
    rcases List.mem_cons.mp member with rfl | member
    · exact le_refl _
    · exact le_of_lt ((List.pairwise_cons.mp sorted).1 a member)
  rcases at_hand presents some with ⟨y, B, first, second, _, _, _, leads⟩ |
    ⟨x, A, first, second, _, _, _, leads⟩ | ⟨x, A, y, B, first, second, _, _, _, leads, _⟩
  · rw [leads]
    refine ⟨?_, Or.inr (by simp [second])⟩
    rintro (_ | _) a member
    · simp [first] at member
    · exact head true y B second a member
  · rw [leads]
    refine ⟨?_, Or.inl (by simp [first])⟩
    rintro (_ | _) a member
    · exact head false x A first a member
    · simp [second] at member
  · by_cases lag : y < x
    · rw [leads, if_pos lag]
      refine ⟨?_, Or.inr (by simp [second])⟩
      rintro (_ | _) a member
      · exact le_trans (le_of_lt lag) (head false x A first a member)
      · exact head true y B second a member
    · rw [leads, if_neg lag]
      refine ⟨?_, Or.inl (by simp [first])⟩
      rintro (_ | _) a member
      · exact head false x A first a member
      · exact le_trans (le_of_not_gt lag) (head true y B second a member)

include merge

theorem isectDone_merging : i.isectDone = decide (R false = [] ∧ R true = []) := by
  rw [IsectIn.isectDone, mergeEna_of_all merge, if_pos rfl, Bool.eq_iff_iff, Bool.and_eq_true,
    decide_eq_true_iff, done_iff presents, done_iff presents]

theorem isectDone_of_some (some : R false ≠ [] ∨ R true ≠ []) : i.isectDone = false := by
  rw [isectDone_merging merge presents, decide_eq_false_iff_not]
  rintro ⟨first, second⟩
  rcases some with some | some
  · exact some first
  · exact some second

/-- **Without a stale match a master gets a zero for what it lacks.** -/
theorem mstZero_eq (increasing : ∀ m, Increasing (R m)) (some : R false ≠ [] ∨ R true ≠ [])
    (fresh : ¬Stale i) (m : Bool) : mstZero i m = decide (selected i ∉ R m) := by
  have ena := mergeEna_of_all merge
  have going := isectDone_of_some merge presents some
  rw [mstZero, IsectIn.metaEna, ena, going]
  rcases at_hand presents some with ⟨y, B, first, second, spent, running, out, leads⟩ |
    ⟨x, A, first, second, running, spent, out, leads⟩ |
    ⟨x, A, y, B, first, second, running0, running1, out, leads, same⟩
  · have differs : i.isectMatch = false := by
      rw [Stale, spent, running] at fresh
      simpa using fresh
    rw [differs, out, leads]
    cases m
    · simp [first]
    · simp [second]
  · have differs : i.isectMatch = false := by
      rw [Stale, spent, running] at fresh
      simpa using fresh
    rw [differs, out, leads]
    cases m
    · simp [first]
    · simp [second]
  · have above0 := (List.pairwise_cons.mp (first ▸ increasing false)).1
    have above1 := (List.pairwise_cons.mp (second ▸ increasing true)).1
    rw [same, out, leads]
    rcases lt_trichotomy y x with lag | rfl | lead
    · have absent : y ∉ x :: A := by
        rintro (_ | ⟨_, member⟩)
        · exact absurd lag (lt_irrefl _)
        · exact absurd (above0 y member) (not_lt_of_gt lag)
      have other : (y == x) = false := beq_false_of_ne (ne_of_lt lag)
      rw [if_pos lag, decide_eq_true lag, other]
      cases m
      · simp [first, absent]
      · simp [second]
    · rw [if_neg (lt_irrefl _), beq_self_eq_true]
      cases m
      · simp [first]
      · simp [second]
    · have absent : x ∉ y :: B := by
        rintro (_ | ⟨_, member⟩)
        · exact absurd lead (lt_irrefl _)
        · exact absurd (above1 x member) (not_lt_of_gt lead)
      have other : (y == x) = false := beq_false_of_ne (ne_of_gt lead)
      rw [if_neg (not_lt_of_gt lead), decide_eq_false (not_lt_of_gt lead), other]
      cases m
      · simp [first]
      · simp [second, absent]

omit merge in
/-- A stale match hides the zero of the master that is done. -/
theorem mstZero_stale (stale : Stale i) :
    ∃ m, R m = [] ∧ R (!m) ≠ [] ∧ mstZero i m = false := by
  obtain ⟨alone, same⟩ := stale
  have zero : ∀ m, mstZero i m = false := by
    intro m
    rw [mstZero, IsectIn.metaEna, same]
    rfl
  have spent := done_iff presents
  by_cases first : R false = []
  · refine ⟨false, first, ?_, zero false⟩
    intro second
    rw [(spent false).mpr first, (spent true).mpr second] at alone
    exact alone rfl
  · refine ⟨true, ?_, first, zero true⟩
    by_contra second
    have running0 : (i.mst false).done = false := by
      rw [← Bool.not_eq_true, spent]
      exact first
    have running1 : (i.mst true).done = false := by
      rw [← Bool.not_eq_true, spent]
      exact second
    rw [running0, running1] at alone
    exact alone rfl

/-- The item a handshake hands out. -/
def item (R : Bool → List (BitVec P.IndexWidth)) (i : IsectIn P) :
    Option (Merged (BitVec P.IndexWidth)) :=
  if R false = [] ∧ R true = [] then none
  else some ⟨selected i, decide (selected i ∉ R false), decide (selected i ∉ R true)⟩

omit merge in
/-- The item heads the agenda, and the streams move past it. -/
theorem agenda_step (increasing : ∀ m, Increasing (R m)) (some : R false ≠ [] ∨ R true ≠ []) :
    agenda R = item R i :: agenda fun m => advance (selected i) (R m) := by
  obtain ⟨least, member⟩ := selected_least presents increasing some
  have going : ¬(R false = [] ∧ R true = []) := by
    rintro ⟨first, second⟩
    rcases some with some | some
    · exact some first
    · exact some second
  rw [item, if_neg going, agenda, merged_step (increasing false) (increasing true) (least false)
    (least true) member]
  rfl

/-- Each master is told what the item has for it. -/
theorem mstRsp_eq (increasing : ∀ m, Increasing (R m)) (fresh : ¬Stale i)
    (moves : (i.srcValid && s.dstAllReady i) = true) (m : Bool) :
    s.mstRsp i m = answer m (item R i) := by
  have ena := mergeEna_of_all merge
  have skip : mstSkip i m = false := by
    rw [mstSkip, ena]
    simp
  have ready : (s.mstRsp i m).ready = true := by
    show (_ && (i.isectEna || _ || _)) = true
    rw [moves, IsectIn.isectEna, ena]
    simp
  have fields : s.mstRsp i m = ⟨mstZero i m, mstSkip i m, i.isectDone, (s.mstRsp i m).ready⟩ := rfl
  rw [fields, ready, skip, isectDone_merging merge presents, item]
  by_cases spent : R false = [] ∧ R true = []
  · have zero : mstZero i m = false := by
      rw [mstZero, IsectIn.metaEna, isectDone_merging merge presents, decide_eq_true spent]
      simp
    rw [if_pos spent, decide_eq_true spent, zero]
    rfl
  · have some : R false ≠ [] ∨ R true ≠ [] := by
      by_contra none
      push Not at none
      exact spent none
    rw [if_neg spent, decide_eq_false spent, mstZero_eq merge presents increasing some fresh]
    cases m <;> rfl

end Handshake

/-! ## Runs of a merge -/

section Run

variable {stream : Bool → List (BitVec P.IndexWidth)} {slvEna : Bool}

theorem answers_concat (past : List (Obs P.IndexWidth)) (s : Intersector P) (i : IsectIn P)
    (m : Bool) : answers (past ++ [(machine P).obs s i]) m =
      answers past m ++ if s.mstHs i m then [s.mstRsp i m] else [] := by
  exact filterMap_shown (by rfl) _

theorem received_concat (past : List (Obs P.IndexWidth)) (s : Intersector P) (i : IsectIn P) :
    received (past ++ [(machine P).obs s i]) = received past ++
      if s.slvHs i then [if i.isectDone then none else some (selected i)] else [] := by
  exact filterMap_shown (by rfl) _

theorem pushed_concat (past : List (Obs P.IndexWidth)) (s : Intersector P) (i : IsectIn P) :
    pushed (past ++ [(machine P).obs s i]) =
      pushed past ++ if s.strHs i then [i.isectDone] else [] := by
  exact filterMap_shown (by rfl) _

theorem popped_concat (past : List (Obs P.IndexWidth)) (s : Intersector P) (i : IsectIn P) :
    popped (past ++ [(machine P).obs s i]) =
      popped past ++ if s.streamctlHs i then [s.streamctlDone] else [] := by
  exact filterMap_shown (by rfl) _

/-- The queue keeps what enters it, in order. -/
theorem queue_next {past : List (Obs P.IndexWidth)} {s : Intersector P}
    (queue : popped past ++ P.streamctl.contents s.streamctl = pushed past) (i : IsectIn P) :
    popped (past ++ [(machine P).obs s i]) ++ P.streamctl.contents (s.next i).streamctl =
      pushed (past ++ [(machine P).obs s i]) := by
  have room : s.strHs i = true → P.streamctl.full s.streamctl = false := by
    intro hs
    rw [strHs, Bool.and_eq_true, dstStrReady, Bool.not_eq_true'] at hs
    exact hs.2
  have some : s.streamctlHs i = true → P.streamctl.empty s.streamctl = false := by
    intro hs
    rw [streamctlHs, Bool.and_eq_true, streamctlValid, Bool.not_eq_true'] at hs
    exact hs.1
  have contents : P.streamctl.contents (s.next i).streamctl =
      (if s.streamctlHs i then (P.streamctl.contents s.streamctl).tail
        else P.streamctl.contents s.streamctl) ++ if s.strHs i then [i.isectDone] else [] :=
    P.streamctl.lawful.next _ _ _ _ room some
  rw [popped_concat, pushed_concat, contents, ← queue]
  cases pops : s.streamctlHs i with
  | false => simp
  | true =>
    have stocked := some pops
    rw [P.streamctl.lawful.empty_eq_isEmpty, List.isEmpty_eq_false_iff] at stocked
    obtain ⟨x, later, stored⟩ := List.exists_cons_of_ne_nil stocked
    have shown : s.streamctlDone = x := P.streamctl.lawful.data_head _ _ _ stored
    simp [stored, shown]

/-- What is still to be handed out. -/
def remaining (stream : Bool → List (BitVec P.IndexWidth)) (past : List (Obs P.IndexWidth)) :
    List (Option (Merged (BitVec P.IndexWidth))) :=
  if finished past then [] else agenda (rest stream past)

/-- The items handed out so far, as all sides have seen them. -/
structure Sound (stream : Bool → List (BitVec P.IndexWidth)) (slvEna : Bool)
    (past : List (Obs P.IndexWidth)) (seen : List (Option (Merged (BitVec P.IndexWidth)))) :
    Prop where
  split : agenda stream = seen ++ remaining stream past
  master : ∀ m, answers past m = seen.map (answer m)
  slave : slvEna = true → received past = seen.map slaveItem
  control : pushed past = seen.map Option.isNone

theorem rest_concat (past : List (Obs P.IndexWidth)) (s : Intersector P) (i : IsectIn P)
    (m : Bool) : rest stream (past ++ [(machine P).obs s i]) m =
      (rest stream past m).drop
        (if s.mstHs i m && !(s.mstRsp i m).zero && !(s.mstRsp i m).done then 1 else 0) := by
  rw [rest, rest, List.drop_drop, position, position, answers_concat, List.filter_append,
    List.length_append]
  congr 2
  cases s.mstHs i m with
  | false => rfl
  | true =>
    rw [if_pos rfl, List.filter_cons, Bool.true_and]
    cases !(s.mstRsp i m).zero && !(s.mstRsp i m).done <;> rfl

theorem increasing_rest (increasing : ∀ m, Increasing (stream m)) (past : List (Obs P.IndexWidth))
    (m : Bool) : Increasing (rest stream past m) :=
  (increasing m).sublist (List.drop_sublist _ _)

/-- **A handshake hands out the next item.** -/
theorem Sound.next (increasing : ∀ m, Increasing (stream m)) {past : List (Obs P.IndexWidth)}
    {s : Intersector P} {i : IsectIn P} {seen : List (Option (Merged (BitVec P.IndexWidth)))}
    (before : Sound stream slvEna past seen) (admitted : merging stream slvEna past s i)
    (fresh : s.mstHs i false = true → ¬Stale i) :
    ∃ seen', Sound stream slvEna (past ++ [(machine P).obs s i]) seen' := by
  obtain ⟨masters, enabled⟩ := admitted
  have merge : ∀ m, (i.mst m).merge = true := fun m => (masters m).1
  have presents : ∀ m, Presents (i.mst m) (rest stream past m) := fun m => (masters m).2.1
  have ena := mergeEna_of_all merge
  have hs := fun m => mstHs_merging (s := s) ena m
  cases moves : i.srcValid && s.dstAllReady i with
  | false =>
    -- nothing is exchanged
    refine ⟨seen, ?_, ?_, ?_, ?_⟩
    · have still : rest stream (past ++ [(machine P).obs s i]) = rest stream past := by
        funext m
        rw [rest_concat, hs, moves]
        rfl
      rw [remaining, finished, answers_concat, hs, moves, if_neg Bool.false_ne_true,
        List.append_nil, still]
      exact before.split
    · intro m
      rw [answers_concat, hs, moves, if_neg Bool.false_ne_true, List.append_nil]
      exact before.master m
    · intro slave
      rw [received_concat, slvHs_merging ena (enabled.trans slave), moves,
        if_neg Bool.false_ne_true, List.append_nil]
      exact before.slave slave
    · rw [pushed_concat, strHs_merging ena, moves, if_neg Bool.false_ne_true, List.append_nil]
      exact before.control
  | true =>
    have sorted := increasing_rest increasing past
    have told := fun m =>
      mstRsp_eq (s := s) merge presents sorted (fresh ((hs false).trans moves)) moves m
    have unfinished : finished past = false := by
      rw [← Bool.not_eq_true]
      intro spent
      have silent := (masters false).2.2 spent
      rw [IsectIn.srcValid, silent] at moves
      exact Bool.noConfusion moves
    have isNone : i.isectDone = (item (rest stream past) i).isNone := by
      rw [isectDone_merging merge presents, item]
      by_cases spent : rest stream past false = [] ∧ rest stream past true = []
      · rw [if_pos spent, decide_eq_true spent]
        rfl
      · rw [if_neg spent, decide_eq_false spent]
        rfl
    refine ⟨seen ++ [item (rest stream past) i], ?_, ?_, ?_, ?_⟩
    · rw [before.split, remaining, unfinished, if_neg Bool.false_ne_true, List.append_assoc]
      congr 1
      by_cases spent : rest stream past false = [] ∧ rest stream past true = []
      · -- the end
        have last : item (rest stream past) i = none := if_pos spent
        have ended : finished (past ++ [(machine P).obs s i]) = true := by
          rw [finished, answers_concat, hs, moves, if_pos rfl, told, last]
          simp [answer]
        rw [remaining, ended, if_pos rfl, agenda_end spent, last]
        rfl
      · have some : rest stream past false ≠ [] ∨ rest stream past true ≠ [] := by
          by_contra none
          push Not at none
          exact spent none
        obtain ⟨least, _⟩ := selected_least presents sorted some
        have going : finished (past ++ [(machine P).obs s i]) = false := by
          rw [finished, answers_concat, hs, moves, if_pos rfl, told, item, if_neg spent,
            List.any_append]
          show (finished past || _) = false
          rw [unfinished]
          rfl
        have moved : rest stream (past ++ [(machine P).obs s i]) =
            fun m => advance (selected i) (rest stream past m) := by
          funext m
          rw [rest_concat, advance_eq_drop (least m) (sorted m), hs, moves, told, item,
            if_neg spent]
          congr 1
          cases m <;> simp [answer]
        rw [remaining, going, if_neg Bool.false_ne_true, moved,
          agenda_step presents sorted some]
        rfl
    · intro m
      rw [answers_concat, hs, moves, if_pos rfl, told, before.master, List.map_append]
      rfl
    · intro slave
      rw [received_concat, slvHs_merging ena (enabled.trans slave), moves, if_pos rfl,
        before.slave slave, List.map_append, isNone]
      congr 1
      rw [item]
      by_cases spent : rest stream past false = [] ∧ rest stream past true = []
      · rw [if_pos spent]
        rfl
      · rw [if_neg spent]
        rfl
    · rw [pushed_concat, strHs_merging ena, moves, if_pos rfl, before.control, List.map_append,
        isNone]
      rfl

/-- What was handed out in order is a merge so far. -/
theorem Sound.merges {past : List (Obs P.IndexWidth)} {s : Intersector P}
    {seen : List (Option (Merged (BitVec P.IndexWidth)))}
    (sound : Sound stream slvEna past seen)
    (queue : popped past ++ P.streamctl.contents s.streamctl = pushed past) :
    Merges stream slvEna past s where
  master m := by
    rw [sound.master, sound.split, List.map_append]
    exact List.prefix_append _ _
  slave slave := by
    rw [sound.slave slave, sound.split, List.map_append]
    exact List.prefix_append _ _
  control := by
    rw [sound.control, sound.split, List.map_append]
    exact List.prefix_append _ _
  together m := by rw [sound.master, sound.control, List.length_map, List.length_map]
  together_slave slave := by
    rw [sound.slave slave, sound.control, List.length_map, List.length_map]
  complete spent := by
    rw [sound.control, sound.split, remaining, if_pos spent, List.append_nil, List.length_map]
  queue := queue

/-- A stale handshake withholds a zero, and the answers are none of a merge. -/
theorem Sound.broken {past : List (Obs P.IndexWidth)} {s : Intersector P} {i : IsectIn P}
    {seen : List (Option (Merged (BitVec P.IndexWidth)))}
    (before : Sound stream slvEna past seen) (increasing : ∀ m, Increasing (stream m))
    (admitted : merging stream slvEna past s i) (hs : s.mstHs i false = true) (stale : Stale i) :
    ∃ m, ¬answers (past ++ [(machine P).obs s i]) m <+: (agenda stream).map (answer m) := by
  obtain ⟨masters, _⟩ := admitted
  have merge : ∀ m, (i.mst m).merge = true := fun m => (masters m).1
  have presents : ∀ m, Presents (i.mst m) (rest stream past m) := fun m => (masters m).2.1
  obtain ⟨m, spent, running, hidden⟩ := mstZero_stale presents stale
  have hs' : s.mstHs i m = true := by
    rw [mstHs_merging (mergeEna_of_all merge)] at hs ⊢
    exact hs
  have unfinished : finished past = false := by
    rw [← Bool.not_eq_true]
    intro ended
    have silent := (masters false).2.2 ended
    rw [mstHs, silent] at hs
    exact Bool.noConfusion hs
  have some : rest stream past false ≠ [] ∨ rest stream past true ≠ [] := by
    cases m
    · exact Or.inr running
    · exact Or.inl running
  refine ⟨m, ?_⟩
  rw [answers_concat, hs', if_pos rfl, before.master, before.split, List.map_append,
    List.prefix_append_right_inj, remaining, unfinished, if_neg Bool.false_ne_true,
    agenda_step presents (increasing_rest increasing past) some, List.map_cons]
  intro same
  have told : s.mstRsp i m = answer m (item (rest stream past) i) :=
    (List.cons_prefix_cons.mp same).1
  have zero : mstZero i m = (answer m (item (rest stream past) i)).zero :=
    congrArg IsectMstRsp.zero told
  have going : ¬(rest stream past false = [] ∧ rest stream past true = []) := by
    rintro ⟨first, second⟩
    cases m
    · exact running second
    · exact running first
  rw [hidden, item, if_neg going] at zero
  cases m <;> simp [answer, spent] at zero

/-- A run is a merge until a stale handshake, and never again. -/
structure Verdict (stream : Bool → List (BitVec P.IndexWidth)) (slvEna : Bool)
    (past : List (Obs P.IndexWidth)) (s : Intersector P) : Prop where
  queue : popped past ++ P.streamctl.contents s.streamctl = pushed past
  fresh : (¬∃ o ∈ past, o.stale = true) → ∃ seen, Sound stream slvEna past seen
  stale : (∃ o ∈ past, o.stale = true) →
    ∃ m, ¬answers past m <+: (agenda stream).map (answer m)

theorem verdict_init : Verdict stream slvEna [] (init P) where
  queue := P.streamctl.lawful.init
  fresh _ := ⟨[], rfl, fun _ => rfl, fun _ => rfl, rfl⟩
  stale := by
    rintro ⟨o, member, _⟩
    exact absurd member List.not_mem_nil

theorem Verdict.next (increasing : ∀ m, Increasing (stream m)) {past : List (Obs P.IndexWidth)}
    {s : Intersector P} (before : Verdict stream slvEna past s) {i : IsectIn P}
    (admitted : merging stream slvEna past s i) :
    Verdict stream slvEna (past ++ [(machine P).obs s i]) (s.next i) where
  queue := queue_next before.queue i
  fresh clean := by
    have earlier : ¬∃ o ∈ past, o.stale = true := by
      rintro ⟨o, member, stale⟩
      exact clean ⟨o, List.mem_append_left _ member, stale⟩
    obtain ⟨seen, sound⟩ := before.fresh earlier
    apply sound.next increasing admitted
    intro hs stale
    apply clean
    refine ⟨(machine P).obs s i, by simp, ?_⟩
    show (s.mstHs i false && decide (Stale i)) = true
    rw [hs, decide_eq_true stale]
    rfl
  stale := by
    rintro ⟨o, member, stale⟩
    by_cases earlier : ∃ o ∈ past, o.stale = true
    · -- what is no prefix stays none
      obtain ⟨m, wrong⟩ := before.stale earlier
      refine ⟨m, ?_⟩
      intro right
      rw [answers_concat] at right
      exact wrong ((List.prefix_append _ _).trans right)
    · obtain ⟨seen, sound⟩ := before.fresh earlier
      have now : ((machine P).obs s i).stale = true := by
        rcases List.mem_append.mp member with member | member
        · exact absurd ⟨o, member, stale⟩ earlier
        · rwa [List.mem_singleton.mp member] at stale
      have both : (s.mstHs i false && decide (Stale i)) = true := now
      rw [Bool.and_eq_true, decide_eq_true_iff] at both
      exact sound.broken increasing admitted both.1 both.2

theorem verdict_of_reaches (increasing : ∀ m, Increasing (stream m))
    {past : List (Obs P.IndexWidth)} {s : Intersector P}
    (reached : (machine P).Reaches (merging stream slvEna) (init P) past s) :
    Verdict stream slvEna past s := by
  apply reached.invariant (Verdict stream slvEna) verdict_init
  intro past s i _ before admitted
  exact before.next increasing admitted

end Run

/-- **Merging.**  Two increasing streams are merged, under any stalls, exactly as long
as no handshake happens while one master is done and its leftover index equals the
index of the other.  A handshake takes place whenever both masters are valid and
slave and queue have room. -/
theorem merges_until_stale {stream : Bool → List (BitVec P.IndexWidth)} {slvEna : Bool}
    (increasing : ∀ m, Increasing (stream m)) {past : List (Obs P.IndexWidth)} {s : Intersector P}
    (reached : (machine P).Reaches (merging stream slvEna) (init P) past s) :
    (Merges stream slvEna past s ↔ ¬∃ o ∈ past, o.stale = true) ∧
      ∀ i, merging stream slvEna past s i → ∀ m,
        s.mstHs i m = (i.srcValid && (i.dstSlvReady && s.dstStrReady)) := by
  have verdict := verdict_of_reaches increasing reached
  refine ⟨⟨?_, ?_⟩, ?_⟩
  · intro merges stale
    obtain ⟨m, wrong⟩ := verdict.stale stale
    exact wrong (merges.master m)
  · intro clean
    obtain ⟨seen, sound⟩ := verdict.fresh clean
    exact sound.merges verdict.queue
  · intro i admitted m
    exact mstHs_merging (mergeEna_of_all fun m => (admitted.1 m).1) m

/-! ## Two short streams -/

/-- Indices of four bits. -/
abbrev narrow : IsectParts := ⟨4, 2, .ofList _ false⟩

/-- Stream 0 is 1, stream 1 is 2. -/
def oneTwo (m : Bool) : List (BitVec narrow.IndexWidth) := if m then [2] else [1]

theorem oneTwo_increasing (m : Bool) : Increasing (oneTwo m) := by
  cases m <;> exact List.pairwise_singleton _ _

/-- Both indices are presented; then master 0 is done and drives `leftover`. -/
def oneThenTwo (leftover : BitVec 4) : List (IsectIn narrow) :=
  [{ mst := fun m => { merge := true, idx := if m then 2 else 1, valid := true } },
    { mst := fun m =>
        if m then { merge := true, idx := 2, valid := true }
        else { merge := true, idx := leftover, done := true, valid := true } }]

theorem merges_until_stale_fresh :
    Merges oneTwo false ((machine narrow).trace (init narrow) (oneThenTwo 1))
      ((machine narrow).run (init narrow) (oneThenTwo 1)) :=
  (@merges_until_stale narrow oneTwo false oneTwo_increasing _ _
    ((machine narrow).reaches_run (init narrow) (oneThenTwo 1) (by decide))).1.mpr (by decide)

/-- With 2 left over, master 0 gets no zero for the 2 that it lacks. -/
theorem stale_index_matches :
    ¬∀ stream slvEna past (s : Intersector narrow), (∀ m, Increasing (stream m)) →
      (machine narrow).Reaches (merging stream slvEna) (init narrow) past s →
        Merges stream slvEna past s := by
  intro claim
  have reached : (machine narrow).Reaches (merging oneTwo false) (init narrow)
      ((machine narrow).trace (init narrow) (oneThenTwo 2))
      ((machine narrow).run (init narrow) (oneThenTwo 2)) :=
    (machine narrow).reaches_run _ _ (by decide)
  obtain ⟨m, wrong⟩ := (verdict_of_reaches oneTwo_increasing reached).stale (by decide)
  exact wrong ((claim oneTwo false _ _ oneTwo_increasing reached).master m)

end Intersector

end SnitchCluster.Ssr
