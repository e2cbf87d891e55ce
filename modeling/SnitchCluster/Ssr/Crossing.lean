/-
# Ssr.Crossing -- the intersector outside merge mode

Of two increasing streams the intersector passes the indices at hand if they are equal
and else skips the lesser one, until either stream is used up; then it tells both
masters, slave and stream controller once that this is the end.

An exchange ends the two, passes an index of both or skips one of one (`Outcome`).
`Crossing` is what the observations so far are then like: each stream has
been passed as far as the other allows (`Passed`), and what slave and stream controller
have seen is what has been passed of both.
-/
import SnitchCluster.Ssr.Intersector

namespace SnitchCluster.Ssr

open Theory

namespace Intersector

variable {P : IsectParts}

/-- What a master is told of an index of its stream. -/
def tell {W : Nat} (stream : Bool → List (BitVec W)) (m : Bool) (x : BitVec W) : IsectMstRsp :=
  { skip := decide (x ∉ stream !m), ready := true }

/-- What a master is told at the end. -/
def ending : IsectMstRsp := { done := true, ready := true }

/-- Two streams are presented for an intersection: what a valid request shows is the head
of what is left, or that nothing is; after the end the requests do not meet. -/
def intersecting (stream : Bool → List (BitVec P.IndexWidth)) (slvEna : Bool) :
    Machine.Env (Intersector P) (IsectIn P) (Obs P.IndexWidth) := fun past _ i =>
  i.srcValid = true → finished past = false ∧
    (∀ m, (i.mst m).merge = false ∧ Presents (i.mst m) (rest stream past m)) ∧
    i.mstSlvEna = slvEna

instance (stream : Bool → List (BitVec P.IndexWidth)) (slvEna : Bool) (past : List (Obs P.IndexWidth))
    (s : Intersector P) (i : IsectIn P) : Decidable (intersecting stream slvEna past s i) :=
  inferInstanceAs (Decidable (_ → _))

/-! ## One cycle -/

section Cycle

variable {s : Intersector P} {i : IsectIn P} {R : Bool → List (BitVec P.IndexWidth)}

/-- What an exchange can be, given what is left of the streams. -/
inductive Outcome (s : Intersector P) (i : IsectIn P) (R : Bool → List (BitVec P.IndexWidth)) : Prop
  | ends (k : Bool) (spent : R k = []) (done : i.isectDone = true)
      (told : ∀ m, s.mstHs i m = true ∧ s.mstRsp i m = ending) (passes : s.strHs i = true)
  | agrees (x : BitVec P.IndexWidth) (later : Bool → List (BitVec P.IndexWidth))
      (left : ∀ m, R m = x :: later m) (going : i.isectDone = false)
      (told : ∀ m, s.mstHs i m = true ∧ s.mstRsp i m = { ready := true })
      (passes : s.strHs i = true) (value : selected i = x)
  | lags (k : Bool) (x y : BitVec P.IndexWidth) (later other : List (BitVec P.IndexWidth))
      (left : R k = x :: later) (right : (R !k) = y :: other) (less : x < y)
      (told : s.mstHs i k = true ∧ s.mstRsp i k = { skip := true, ready := true })
      (idle : (s.mstHs i !k) = false) (silent : s.strHs i = false)

/-- A slave that is enabled moves with the queue. -/
theorem slvHs_eq (ena : i.mstSlvEna = true) : s.slvHs i = s.strHs i := by
  show (i.srcValid && s.dstStrReady && i.isectEna && i.slvReq.ena && i.slvReq.ready) =
    (i.srcValid && i.dstSlvReady && i.isectEna && s.dstStrReady)
  rw [IsectIn.dstSlvReady, ena]
  cases i.srcValid <;> cases s.dstStrReady <;> cases i.isectEna <;> cases i.slvReq.ena <;>
    cases i.slvReq.ready <;> rfl

/-- Without both masters, or without room, nothing is exchanged. -/
theorem still (stalls : (i.srcValid && s.dstAllReady i) = false) :
    (∀ m, s.mstHs i m = false) ∧ s.strHs i = false := by
  constructor
  · intro m
    show ((i.mst m).valid && (i.srcValid && s.dstAllReady i && _)) = false
    rw [stalls, Bool.false_and, Bool.and_false]
  · rw [dstAllReady] at stalls
    rw [strHs, strValid]
    revert stalls
    cases i.srcValid <;> cases i.dstSlvReady <;> cases s.dstStrReady <;> cases i.isectEna <;>
      decide

section Moves

variable (plain : ∀ m, (i.mst m).merge = false) (moves : (i.srcValid && s.dstAllReady i) = true)

include moves in
theorem valid_of_moves (m : Bool) : (i.mst m).valid = true := by
  rw [Bool.and_eq_true, IsectIn.srcValid, Bool.and_eq_true] at moves
  cases m
  · exact moves.1.1
  · exact moves.1.2

include plain

theorem mergeEna_plain : i.mergeEna = false := by
  rw [IsectIn.mergeEna, plain, plain]
  rfl

theorem isectDone_plain : i.isectDone = ((i.mst false).done || (i.mst true).done) := by
  rw [IsectIn.isectDone, mergeEna_plain plain, if_neg Bool.false_ne_true]

theorem mstRsp_plain (m : Bool) (hs : s.mstHs i m = true) :
    s.mstRsp i m = { skip := mstSkip i m, done := i.isectDone, ready := true } := by
  have ready : (s.mstRsp i m).ready = true := by
    rw [mstHs, Bool.and_eq_true] at hs
    exact hs.2
  have zero : mstZero i m = false := by
    rw [mstZero, mergeEna_plain plain, Bool.and_false, Bool.false_and]
  have fields : s.mstRsp i m = ⟨mstZero i m, mstSkip i m, i.isectDone, (s.mstRsp i m).ready⟩ := rfl
  rw [fields, ready, zero]

include moves

/-- Who takes part in an exchange. -/
theorem mstHs_plain (m : Bool) : s.mstHs i m = (i.isectMatch || i.isectDone || mstSkip i m) := by
  have ready : (s.mstRsp i m).ready =
      (i.srcValid && s.dstAllReady i && (i.isectEna || mstZero i m || mstSkip i m)) := rfl
  rw [mstHs, ready, valid_of_moves moves, moves, IsectIn.isectEna, mstZero,
    mergeEna_plain plain]
  simp

theorem strHs_plain : s.strHs i = (i.isectMatch || i.isectDone) := by
  rw [strHs, strValid, IsectIn.isectEna, mergeEna_plain plain, Bool.false_or]
  rw [dstAllReady, Bool.and_eq_true, Bool.and_eq_true] at moves
  obtain ⟨source, slave, queue⟩ := moves
  rw [source, slave, queue, Bool.and_true, Bool.true_and, Bool.true_and]

variable (presents : ∀ m, Presents (i.mst m) (R m))

include presents

/-- **What happens when both masters are valid and there is room.** -/
theorem outcome_of_moves : Outcome s i R := by
  have done := done_iff presents
  by_cases spent : ∃ k, R k = []
  · -- a stream is used up
    obtain ⟨k, empty⟩ := spent
    have ends : i.isectDone = true := by
      have flag := (done k).mpr empty
      rw [isectDone_plain plain]
      cases k
      · rw [flag, Bool.true_or]
      · rw [flag, Bool.or_true]
    have skip : ∀ m, mstSkip i m = false := by
      intro m
      rw [mstSkip, IsectIn.metaEna, ends]
      simp
    have hs : ∀ m, s.mstHs i m = true := by
      intro m
      rw [mstHs_plain plain moves, ends, Bool.or_true, Bool.true_or]
    refine .ends k empty ends (fun m => ⟨hs m, ?_⟩) ?_
    · rw [mstRsp_plain plain m (hs m), skip, ends]
      rfl
    · rw [strHs_plain plain moves, ends, Bool.or_true]
  · push Not at spent
    obtain ⟨x, A, first⟩ := List.exists_cons_of_ne_nil (spent false)
    obtain ⟨y, B, second⟩ := List.exists_cons_of_ne_nil (spent true)
    obtain ⟨running0, idx0⟩ := idx_of_cons presents first
    obtain ⟨running1, idx1⟩ := idx_of_cons presents second
    have going : i.isectDone = false := by
      rw [isectDone_plain plain, running0, running1]
      rfl
    have same : i.isectMatch = (y == x) := by rw [IsectIn.isectMatch, idx0, idx1]
    have out : i.isectMsout = decide (y < x) := by
      rw [IsectIn.isectMsout, running0, running1, IsectIn.isectMslag, idx0, idx1]
      rfl
    rcases lt_trichotomy y x with lag | rfl | lead
    · have other : (y == x) = false := beq_false_of_ne (ne_of_lt lag)
      have skip : ∀ m, mstSkip i m = m := by
        intro m
        rw [mstSkip, IsectIn.metaEna, same, other, going, mergeEna_plain plain, out,
          decide_eq_true lag]
        cases m <;> rfl
      have hs : s.mstHs i true = true := by
        rw [mstHs_plain plain moves, skip, Bool.or_true]
      refine .lags true y x B A second first lag ⟨hs, ?_⟩ ?_ ?_
      · rw [mstRsp_plain plain true hs, skip, going]
      · rw [mstHs_plain plain moves, skip, same, other, going]
        rfl
      · rw [strHs_plain plain moves, same, other, going]
        rfl
    · have agree : i.isectMatch = true := by rw [same, beq_self_eq_true]
      have skip : ∀ m, mstSkip i m = false := by
        intro m
        rw [mstSkip, IsectIn.metaEna, agree]
        simp
      have hs : ∀ m, s.mstHs i m = true := by
        intro m
        rw [mstHs_plain plain moves, agree, Bool.true_or, Bool.true_or]
      refine .agrees y (fun m => if m then B else A) ?_ going (fun m => ⟨hs m, ?_⟩) ?_ ?_
      · intro m
        cases m
        · exact first
        · exact second
      · rw [mstRsp_plain plain m (hs m), skip, going]
      · rw [strHs_plain plain moves, agree, Bool.true_or]
      · rw [selected, out, decide_eq_false (lt_irrefl y)]
        exact idx0
    · have other : (y == x) = false := beq_false_of_ne (ne_of_gt lead)
      have skip : ∀ m, mstSkip i m = !m := by
        intro m
        rw [mstSkip, IsectIn.metaEna, same, other, going, mergeEna_plain plain, out,
          decide_eq_false (lt_asymm lead)]
        cases m <;> rfl
      have hs : s.mstHs i false = true := by
        rw [mstHs_plain plain moves, skip, Bool.not_false, Bool.or_true]
      refine .lags false x y A B first second lead ⟨hs, ?_⟩ ?_ ?_
      · rw [mstRsp_plain plain false hs, skip, going]
        rfl
      · rw [mstHs_plain plain moves, skip, same, other, going]
        rfl
      · rw [strHs_plain plain moves, same, other, going]
        rfl

end Moves

/-- In an intersection a slave that is enabled moves with the queue. -/
theorem slvHs_eq_of_admitted {stream : Bool → List (BitVec P.IndexWidth)} {slvEna : Bool}
    {past : List (Obs P.IndexWidth)} (admitted : intersecting stream slvEna past s i)
    (ena : slvEna = true) : s.slvHs i = s.strHs i := by
  cases source : i.srcValid with
  | false =>
    show (i.srcValid && s.dstStrReady && i.isectEna && i.slvReq.ena && i.slvReq.ready) =
      (i.srcValid && i.dstSlvReady && i.isectEna && s.dstStrReady)
    rw [source]
    simp only [Bool.false_and]
  | true =>
    obtain ⟨_, _, enabled⟩ := admitted source
    exact slvHs_eq (enabled.trans ena)

end Cycle

/-! ## Runs -/

/-- Once, at the end. -/
def atEnd {α : Type} (finished : Bool) (x : α) : List α := if finished then [x] else []

/-- What has been exchanged so far is an intersection so far. -/
structure Crossing (stream : Bool → List (BitVec P.IndexWidth)) (slvEna : Bool)
    (past : List (Obs P.IndexWidth)) : Prop where
  passed : Passed stream (position past)
  within : ∀ m, position past m ≤ (stream m).length
  spent : finished past = true → ∃ k, (stream k).length ≤ position past k
  master : ∀ m, answers past m =
    ((stream m).take (position past m)).map (tell stream m) ++ atEnd (finished past) ending
  slave : slvEna = true → ∀ m, received past =
    (shared stream m (position past m)).map some ++ atEnd (finished past) none
  control : ∀ m, pushed past =
    (shared stream m (position past m)).map (fun _ => false) ++ atEnd (finished past) true

section Run

variable {stream : Bool → List (BitVec P.IndexWidth)} {slvEna : Bool}
  {past : List (Obs P.IndexWidth)}

theorem position_concat (past : List (Obs P.IndexWidth)) (s : Intersector P) (i : IsectIn P)
    (m : Bool) : position (past ++ [(machine P).obs s i]) m = position past m +
      (s.mstHs i m && (!(s.mstRsp i m).zero && !(s.mstRsp i m).done)).toNat := by
  rw [position, position, answers_concat, List.filter_append, List.length_append]
  cases s.mstHs i m with
  | false => rfl
  | true =>
    rw [if_pos rfl, List.filter_singleton, Bool.true_and]
    cases !(s.mstRsp i m).zero && !(s.mstRsp i m).done <;> rfl

theorem finished_concat (past : List (Obs P.IndexWidth)) (s : Intersector P) (i : IsectIn P) :
    finished (past ++ [(machine P).obs s i]) =
      (finished past || (s.mstHs i false && (s.mstRsp i false).done)) := by
  rw [finished, finished, answers_concat, List.any_append]
  cases s.mstHs i false with
  | false => rfl
  | true =>
    rw [if_pos rfl, Bool.true_and, List.any_cons, List.any_nil, Bool.or_false]

theorem crossing_nil : Crossing stream slvEna [] where
  passed := passed_zero
  within _ := Nat.zero_le _
  spent := Bool.noConfusion
  master _ := rfl
  slave _ _ := rfl
  control _ := rfl

/-- Without an exchange nothing changes. -/
theorem Crossing.waits (crossing : Crossing stream slvEna past) {s : Intersector P} {i : IsectIn P}
    (enabled : slvEna = true → s.slvHs i = s.strHs i) (idle : ∀ m, s.mstHs i m = false)
    (silent : s.strHs i = false) : Crossing stream slvEna (past ++ [(machine P).obs s i]) := by
  have place : position (past ++ [(machine P).obs s i]) = position past := by
    funext m
    rw [position_concat, idle]
    rfl
  have end_ : finished (past ++ [(machine P).obs s i]) = finished past := by
    rw [finished_concat, idle, Bool.false_and, Bool.or_false]
  constructor
  case passed =>
    rw [place]
    exact crossing.passed
  case within =>
    rw [place]
    exact crossing.within
  case spent =>
    rw [place, end_]
    exact crossing.spent
  case master =>
    intro m
    rw [place, end_, answers_concat, idle, if_neg Bool.false_ne_true, List.append_nil]
    exact crossing.master m
  case slave =>
    intro ena m
    rw [place, end_, received_concat, enabled ena, silent, if_neg Bool.false_ne_true, List.append_nil]
    exact crossing.slave ena m
  case control =>
    intro m
    rw [place, end_, pushed_concat, silent, if_neg Bool.false_ne_true, List.append_nil]
    exact crossing.control m

theorem lt_length_of_left {m : Bool} {x : BitVec P.IndexWidth} {later : List (BitVec P.IndexWidth)}
    (left : rest stream past m = x :: later) : position past m < (stream m).length := by
  by_contra beyond
  rw [rest, List.drop_of_length_le (Nat.not_lt.mp beyond)] at left
  exact absurd left (by simp)

theorem take_succ_of_left {m : Bool} {x : BitVec P.IndexWidth} {later : List (BitVec P.IndexWidth)}
    (left : rest stream past m = x :: later) : (stream m).take (position past m + 1) =
      (stream m).take (position past m) ++ [x] := by
  have head : (stream m)[position past m]? = some x := by
    rw [← Nat.add_zero (position past m), ← List.getElem?_drop]
    exact congrArg (·[0]?) left
  rw [List.take_add_one, head]
  rfl

theorem mem_stream_of_left {m : Bool} {x : BitVec P.IndexWidth} {later : List (BitVec P.IndexWidth)}
    (left : rest stream past m = x :: later) : x ∈ stream m := by
  apply List.mem_of_mem_drop
  rw [rest] at left
  rw [left]
  exact List.mem_cons_self

/-- **The end.** -/
theorem Crossing.ends (crossing : Crossing stream slvEna past) (going : finished past = false)
    {s : Intersector P} {i : IsectIn P} (enabled : slvEna = true → s.slvHs i = s.strHs i) {k : Bool}
    (spent : rest stream past k = []) (done : i.isectDone = true)
    (told : ∀ m, s.mstHs i m = true ∧ s.mstRsp i m = ending) (passes : s.strHs i = true) :
    Crossing stream slvEna (past ++ [(machine P).obs s i]) := by
  have place : position (past ++ [(machine P).obs s i]) = position past := by
    funext m
    obtain ⟨hs, rsp⟩ := told m
    rw [position_concat, hs, rsp]
    rfl
  have end_ : finished (past ++ [(machine P).obs s i]) = true := by
    obtain ⟨hs, rsp⟩ := told false
    rw [finished_concat, hs, rsp]
    exact Bool.or_true _
  constructor
  case passed =>
    rw [place]
    exact crossing.passed
  case within =>
    rw [place]
    exact crossing.within
  case spent =>
    intro _
    rw [place]
    exact ⟨k, List.drop_eq_nil_iff.mp spent⟩
  case master =>
    intro m
    obtain ⟨hs, rsp⟩ := told m
    have before := crossing.master m
    rw [going, atEnd, if_neg Bool.false_ne_true, List.append_nil] at before
    rw [place, end_, answers_concat, hs, rsp, before]
    rfl
  case slave =>
    intro ena m
    have before := crossing.slave ena m
    rw [going, atEnd, if_neg Bool.false_ne_true, List.append_nil] at before
    rw [place, end_, received_concat, enabled ena, passes, done, before]
    rfl
  case control =>
    intro m
    have before := crossing.control m
    rw [going, atEnd, if_neg Bool.false_ne_true, List.append_nil] at before
    rw [place, end_, pushed_concat, passes, done, before]
    rfl

/-- **An index of both streams passes.** -/
theorem Crossing.agrees (crossing : Crossing stream slvEna past)
    (increasing : ∀ m, Increasing (stream m)) (open_ : finished past = false)
    {s : Intersector P} {i : IsectIn P} (enabled : slvEna = true → s.slvHs i = s.strHs i)
    {x : BitVec P.IndexWidth} {later : Bool → List (BitVec P.IndexWidth)}
    (left : ∀ m, rest stream past m = x :: later m) (going : i.isectDone = false)
    (told : ∀ m, s.mstHs i m = true ∧ s.mstRsp i m = { ready := true })
    (passes : s.strHs i = true) (value : selected i = x) :
    Crossing stream slvEna (past ++ [(machine P).obs s i]) := by
  have place : ∀ m, position (past ++ [(machine P).obs s i]) m = position past m + 1 := by
    intro m
    obtain ⟨hs, rsp⟩ := told m
    rw [position_concat, hs, rsp]
    rfl
  have end_ : finished (past ++ [(machine P).obs s i]) = false := by
    obtain ⟨hs, rsp⟩ := told false
    rw [finished_concat, open_, hs, rsp]
    rfl
  have member : ∀ m, x ∈ stream m := fun m => mem_stream_of_left (left m)
  have grows : ∀ m, shared stream m (position past m + 1) =
      shared stream m (position past m) ++ [x] := by
    intro m
    rw [shared_succ (left m), if_pos (member !m)]
  constructor
  case passed => exact crossing.passed.both increasing left place
  case within =>
    intro m
    rw [place]
    exact lt_length_of_left (left m)
  case spent =>
    intro ended
    rw [end_] at ended
    exact Bool.noConfusion ended
  case master =>
    intro m
    obtain ⟨hs, rsp⟩ := told m
    have before := crossing.master m
    have passes : tell stream m x = { ready := true } := by
      rw [tell, decide_eq_false (not_not.mpr (member !m))]
    rw [open_, atEnd, if_neg Bool.false_ne_true, List.append_nil] at before
    rw [place, end_, answers_concat, hs, rsp, before, take_succ_of_left (left m), List.map_append,
      List.map_singleton, passes]
    exact (List.append_nil _).symm
  case slave =>
    intro ena m
    have before := crossing.slave ena m
    rw [open_, atEnd, if_neg Bool.false_ne_true, List.append_nil] at before
    rw [place, end_, received_concat, enabled ena, passes, going, value, before, grows,
      List.map_append]
    exact (List.append_nil _).symm
  case control =>
    intro m
    have before := crossing.control m
    rw [open_, atEnd, if_neg Bool.false_ne_true, List.append_nil] at before
    rw [place, end_, pushed_concat, passes, going, before, grows, List.map_append]
    exact (List.append_nil _).symm

/-- **The lesser index is skipped.** -/
theorem Crossing.lags (crossing : Crossing stream slvEna past)
    (increasing : ∀ m, Increasing (stream m)) (open_ : finished past = false)
    {s : Intersector P} {i : IsectIn P} (enabled : slvEna = true → s.slvHs i = s.strHs i) {k : Bool}
    {x y : BitVec P.IndexWidth} {later other : List (BitVec P.IndexWidth)}
    (left : rest stream past k = x :: later) (right : (rest stream past !k) = y :: other)
    (less : x < y) (told : s.mstHs i k = true ∧ s.mstRsp i k = { skip := true, ready := true })
    (idle : (s.mstHs i !k) = false) (silent : s.strHs i = false) :
    Crossing stream slvEna (past ++ [(machine P).obs s i]) := by
  obtain ⟨hs, rsp⟩ := told
  have moves : position (past ++ [(machine P).obs s i]) k = position past k + 1 := by
    rw [position_concat, hs, rsp]
    rfl
  have stays : (position (past ++ [(machine P).obs s i]) !k) = position past !k := by
    rw [position_concat, idle]
    rfl
  have end_ : finished (past ++ [(machine P).obs s i]) = false := by
    rw [finished_concat, open_, Bool.false_or]
    cases k with
    | false =>
      rw [hs, rsp]
      rfl
    | true =>
      have first : s.mstHs i false = false := idle
      rw [first, Bool.false_and]
  have missing : x ∉ stream !k := crossing.passed.not_mem increasing left right less
  have either : ∀ m, m = k ∨ m = !k := by
    intro m
    cases m <;> cases k <;> decide
  have same : ∀ m, shared stream m (position (past ++ [(machine P).obs s i]) m) =
      shared stream m (position past m) := by
    intro m
    rcases either m with rfl | rfl
    · rw [moves, shared_succ left, if_neg missing, List.append_nil]
    · rw [stays]
  constructor
  case passed => exact crossing.passed.skip increasing left right less moves stays
  case within =>
    intro m
    rcases either m with rfl | rfl
    · rw [moves]
      exact lt_length_of_left left
    · rw [stays]
      exact crossing.within _
  case spent =>
    intro ended
    rw [end_] at ended
    exact Bool.noConfusion ended
  case master =>
    intro m
    have before := crossing.master m
    rw [open_] at before
    rcases either m with rfl | rfl
    · have skips : tell stream m x = { skip := true, ready := true } := by
        rw [tell, decide_eq_true missing]
      rw [atEnd, if_neg Bool.false_ne_true, List.append_nil] at before
      rw [moves, end_, answers_concat, hs, rsp, before, take_succ_of_left left, List.map_append,
        List.map_singleton, skips]
      exact (List.append_nil _).symm
    · rw [stays, end_, answers_concat, idle, if_neg Bool.false_ne_true, List.append_nil]
      exact before
  case slave =>
    intro ena m
    have before := crossing.slave ena m
    rw [open_] at before
    rw [same, end_, received_concat, enabled ena, silent, if_neg Bool.false_ne_true,
      List.append_nil]
    exact before
  case control =>
    intro m
    have before := crossing.control m
    rw [open_] at before
    rw [same, end_, pushed_concat, silent, if_neg Bool.false_ne_true, List.append_nil]
    exact before

/-- **The cycle of an intersection.** -/
theorem Crossing.next (crossing : Crossing stream slvEna past)
    (increasing : ∀ m, Increasing (stream m)) {s : Intersector P} {i : IsectIn P}
    (admitted : intersecting stream slvEna past s i) :
    Crossing stream slvEna (past ++ [(machine P).obs s i]) := by
  have enabled := slvHs_eq_of_admitted admitted
  cases moves : i.srcValid && s.dstAllReady i with
  | false =>
    obtain ⟨idle, silent⟩ := still moves
    exact crossing.waits enabled idle silent
  | true =>
    have source : i.srcValid = true := (Bool.and_eq_true _ _ ▸ moves).1
    obtain ⟨open_, masters, _⟩ := admitted source
    cases outcome_of_moves (fun m => (masters m).1) moves fun m => (masters m).2 with
    | ends k spent done told passes => exact crossing.ends open_ enabled spent done told passes
    | agrees x later left going told passes value =>
      exact crossing.agrees increasing open_ enabled left going told passes value
    | lags k x y later other left right less told idle silent =>
      exact crossing.lags increasing open_ enabled left right less told idle silent

/-- What has been exchanged leads what is to be, and is all of it at the end. -/
theorem Crossing.shown (crossing : Crossing stream slvEna past)
    (increasing : ∀ m, Increasing (stream m)) {α : Type} (f : BitVec P.IndexWidth → α) (last : α)
    (m : Bool) :
    (shared stream m (position past m)).map f ++ atEnd (finished past) last <+:
        (inter (stream false) (stream true)).map f ++ [last] ∧
      (finished past = true → (shared stream m (position past m)).map f ++
        atEnd (finished past) last = (inter (stream false) (stream true)).map f ++ [last]) := by
  rw [← common_eq_inter increasing m]
  cases ended : finished past with
  | false =>
    refine ⟨?_, Bool.noConfusion⟩
    rw [atEnd, if_neg Bool.false_ne_true, List.append_nil]
    exact ((shared_initial m _).map f).trans (List.prefix_append _ _)
  | true =>
    obtain ⟨k, used⟩ := crossing.spent ended
    rw [crossing.passed.shared_all used m]
    exact ⟨List.prefix_rfl, fun _ => rfl⟩

/-- **Intersecting.**  Two increasing streams are passed side by side under any stalls: the
slave, if enabled, receives the indices of both in order and then the end, once, and the
stream controller as many flags. -/
theorem intersects (increasing : ∀ m, Increasing (stream m)) {s : Intersector P}
    (reached : (machine P).Reaches (intersecting stream slvEna) (init P) past s) :
    (slvEna = true → received past <+: (inter (stream false) (stream true)).map some ++ [none]) ∧
      pushed past <+: (inter (stream false) (stream true)).map (fun _ => false) ++ [true] ∧
      popped past ++ P.streamctl.contents s.streamctl = pushed past ∧
      (finished past = true →
        (slvEna = true →
          received past = (inter (stream false) (stream true)).map some ++ [none]) ∧
        pushed past = (inter (stream false) (stream true)).map (fun _ => false) ++ [true]) := by
  have both : Crossing stream slvEna past ∧
      popped past ++ P.streamctl.contents s.streamctl = pushed past := by
    apply reached.invariant fun past s => Crossing stream slvEna past ∧
      popped past ++ P.streamctl.contents s.streamctl = pushed past
    · exact ⟨crossing_nil, P.streamctl.lawful.init⟩
    · intro past s i _ before admitted
      obtain ⟨crossing, queue⟩ := before
      exact ⟨crossing.next increasing admitted, queue_next queue i⟩
  obtain ⟨crossing, queue⟩ := both
  have control := crossing.shown increasing (fun _ => false) true false
  have slave := crossing.shown increasing some none false
  rw [← crossing.control] at control
  refine ⟨?_, control.1, queue, fun ended => ⟨?_, control.2 ended⟩⟩
  · intro ena
    rw [crossing.slave ena false]
    exact slave.1
  · intro ena
    rw [crossing.slave ena false]
    exact slave.2 ended

end Run

/-- Both streams show a 2, then their end. -/
def bothTwo : List (IsectIn narrow) :=
  [{ mst := fun _ => { idx := 2, valid := true } },
    { mst := fun _ => { done := true, valid := true } }]

theorem intersects_both :
    pushed ((machine narrow).trace (init narrow) bothTwo) = [false, true] :=
  ((@intersects narrow (fun _ => [2]) false _ (fun _ => List.pairwise_singleton _ _) _
    ((machine narrow).reaches_run (init narrow) bothTwo (by decide))).2.2.2 (by decide)).2.trans
      (by rw [inter_eq_filter (List.pairwise_singleton _ _)]; decide)

end Intersector

end SnitchCluster.Ssr
