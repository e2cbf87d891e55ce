/-
# Reqrsp.WriteErrors -- what a write response says of its burst

Every beat of a write burst is answered on the reqrsp side; on AXI the burst is answered once.
The bridge composes that response from the answer to the last beat, and drops the answers to
the beats before.  `errorReported_iff` says what follows: the response tells whether a beat
failed exactly where the last one failed or none did.
-/
import SnitchCluster.Reqrsp.FromAxi
import SnitchCluster.Theory.Bursts

namespace SnitchCluster.Reqrsp.FromAxi

open Theory

variable {P : FromAxiParts} (past : List (Obs P)) (s : FromAxi P)

/-- The beats answered so far as B is concerned, with their answers. -/
def answeredBeats : List (Item P × P.Rsp) := (fed past s 1).zip (answered past s 1)

/-- Those of the write bursts. -/
def writeAnswers : List (Item P × P.Rsp) := (answeredBeats past s).filter fun a => a.1.1.write

/-- The answers to the beats of each write burst accepted, ... -/
def burstAnswers : List (List (Item P × P.Rsp)) :=
  ((aws past).map fun aw => aw.len.toNat + 1).splitLengths (writeAnswers past s)

/-- ... of which B has the response of the same number: it signals an error if and only if some
beat was answered with one. -/
def ErrorReported (k : Nat) : Prop :=
  ∀ burst response, (burstAnswers past s)[k]? = some burst →
    (bBeats past)[k]? = some response →
      (response.resp.getLsbD 1 = true ↔ ∃ a ∈ burst, a.2.error = true)

/-- Either the last beat of the burst fails, or none does. -/
def LastTells (k : Nat) : Prop :=
  ∀ burst, (burstAnswers past s)[k]? = some burst → (bBeats past)[k]?.isSome = true →
    (∃ a, burst.getLast? = some a ∧ a.2.error = true) ∨ ∀ a ∈ burst, a.2.error = false

variable {past s}

/-! ## The beats of the bursts -/

theorem writeBeats_last (aw : P.Aw) :
    (writeBeats P aw).map MetaT.last = List.replicate aw.len.toNat false ++ [true] := by
  rw [writeBeats, beats, List.map_map, List.range_succ, List.map_append]
  refine congrArg₂ _ ?_ (by simp)
  rw [List.eq_replicate_iff]
  refine ⟨by simp, ?_⟩
  simp only [List.mem_map, List.mem_range, Function.comp_apply, forall_exists_index, and_imp]
  rintro last k before rfl
  exact decide_eq_false (Nat.ne_of_lt before)

theorem writeBeats_marks (aws : List P.Aw) :
    (aws.flatMap (writeBeats P)).map MetaT.last = burstMarks (aws.map fun aw => aw.len.toNat) := by
  simp only [burstMarks, List.map_flatMap, List.flatMap_map, writeBeats_last]

/-- A write beat left at the fork is the next of its burst, or the first of another. -/
theorem left_of_waiting (reached : (machine P).Reaches steady (init P) past s) {x : Item P}
    (kept : waits past Obs.itemLeft = some x) (write : x.1.write = true) :
    left s.wr = [] ∨ ∃ rest, left s.wr = x.1 :: rest := by
  cases reached with
  | start => cases kept
  | @cycle past s i before admitted =>
    have inv : Inv past s := before.invariant Inv inv_init
      fun _ _ _ _ known admits => known.next admits
    rw [waits_concat] at kept
    have unready : s.arbReady i = false := by
      by_contra ready
      rw [Bool.not_eq_false] at ready
      have none : ((machine P).obs s i).itemLeft = none := if_pos ready
      rw [none] at kept
      cases kept
    have shown : s.item i = some x := by
      rw [← kept]
      exact (if_neg (Bool.eq_false_iff.mp unready)).symm
    have valid : s.arbValid i = true := by
      by_contra invalid
      rw [item, if_neg invalid] at shown
      cases shown
    rw [inv.item_eq valid, Option.some.injEq] at shown
    subst shown
    have picked : s.metaSelD i = true := (inv.arbMeta_write valid).symm.trans write
    have stopped : (s.wrValid i && s.wrReady i) = false := by
      rw [wrReady_eq, unready, Bool.and_false, Bool.and_false]
    have after : left (s.next i).wr = left s.wr := by
      have next : (s.next i).wr =
          s.wr.next (i.awValid && i.wValid) i.aw.toArChan i.aw.atop true false := by
        rw [← stopped]
        rfl
      rw [next]
      exact left_stays s.wr _ _ _ _
    show left (s.next i).wr = [] ∨ ∃ rest, left (s.next i).wr = s.arbMeta i :: rest
    rw [after, arbMeta_eq, if_pos picked]
    cases busy : s.wr.busy with
    | false => exact .inl (left_idle _ busy)
    | true => exact .inr ⟨_, left_busy s.wr _ _ _ _ busy⟩

/-- The write beats fed are those of the bursts, in order, and perhaps the first of another. -/
theorem fed_writes (reached : (machine P).Reaches steady (init P) past s) (taker : Fin 3) :
    ∃ later, ((fed past s taker).map Prod.fst).filter (fun m => m.write) <+:
      (aws past).flatMap (writeBeats P) ++ later := by
  have writes := (inv_reached reached).writes
  rw [fed, List.map_append, List.filter_append, ← writes]
  cases served : P.fork.served s.fork taker with
  | false => exact ⟨[], by simp⟩
  | true =>
    cases kept : waits past Obs.itemLeft with
    | none => exact ⟨[], by simp⟩
    | some x =>
      cases write : x.1.write with
      | false => exact ⟨[], by simp [write]⟩
      | true =>
        refine ⟨[x.1], ?_⟩
        have here : ((if (true : Bool) = true then (some x).toList else []).map
            Prod.fst).filter (fun m => m.write) = [x.1] := by simp [write]
        rw [here, List.append_assoc, List.prefix_append_right_inj]
        rcases left_of_waiting reached kept write with none | ⟨rest, first⟩
        · simp only [none, List.nil_append]
          exact List.prefix_rfl
        · rw [first]
          exact ⟨rest ++ [x.1], rfl⟩

/-! ## The answers -/

theorem zip_fst_front {α β : Type} (xs : List α) (ys : List β) :
    (xs.zip ys).map Prod.fst <+: xs := by
  induction xs generalizing ys with
  | nil => simp
  | cons x xs ih =>
    cases ys with
    | nil => simp
    | cons y ys => simpa using ih ys

section

variable (reached : (machine P).Reaches steady (init P) past s)

include reached

/-- The write beats answered are a front of those fed. -/
theorem writeAnswers_marks : ∃ later, (writeAnswers past s).map (fun a => a.1.1.last) <+:
      burstMarks ((aws past).map fun aw => aw.len.toNat) ++ later := by
  obtain ⟨later, fed⟩ := fed_writes reached 1
  refine ⟨later.map MetaT.last, ?_⟩
  have answers : (writeAnswers past s).map (fun a => a.1.1) =
      (((answeredBeats past s).map Prod.fst).map Prod.fst).filter fun m => m.write := by
    rw [writeAnswers, List.map_map, List.filter_map]
    rfl
  have front : (writeAnswers past s).map (fun a => a.1.1) <+:
      (aws past).flatMap (writeBeats P) ++ later := by
    rw [answers]
    exact (((zip_fst_front _ _).map _).filter _).trans fed
  have marks := front.map MetaT.last
  rwa [List.map_map, List.map_append, writeBeats_marks] at marks

/-- The responses on B are those to the last beats. -/
theorem bBeats_answers : bBeats past =
      ((writeAnswers past s).filter fun a => a.1.1.last).map fun a => b a.1.1 a.2 := by
  rw [(inv_reached reached).bBeats_eq, writeAnswers, ← answeredBeats]
  induction answeredBeats past s with
  | nil => rfl
  | cons a rest ih =>
    have beat : bOf a.1 a.2 =
        if a.1.1.write && a.1.1.last then some (b a.1.1 a.2) else none := rfl
    rw [List.filterMap_cons, ih, beat]
    cases write : a.1.1.write <;> cases last : a.1.1.last <;> simp [write, last]

/-- The response of a burst is that of its last beat. -/
theorem response_last {k : Nat}
    {burst : List (Item P × P.Rsp)} (here : (burstAnswers past s)[k]? = some burst)
    {response : P.B} (responds : (bBeats past)[k]? = some response) :
    ∃ front a, burst = front ++ [a] ∧ ((aws past).map fun aw => aw.len.toNat)[k]? = some front.length ∧
      response.resp.getLsbD 1 = a.2.error := by
  obtain ⟨later, marks⟩ := writeAnswers_marks reached
  rw [bBeats_answers reached, List.getElem?_map, Option.map_eq_some_iff] at responds
  obtain ⟨a, closes, rfl⟩ := responds
  have cut : burstAnswers past s =
      (((aws past).map fun aw => aw.len.toNat).map (· + 1)).splitLengths (writeAnswers past s) := by
    rw [burstAnswers, List.map_map]
    rfl
  rw [cut] at here
  obtain ⟨front, rfl, length⟩ := splitLengths_last marks here closes
  exact ⟨front, a, rfl, length, resp_error _ _⟩

end

/-- **A write error is told exactly where the last beat of the burst fails, or none does.** -/
theorem errorReported_iff (reached : (machine P).Reaches steady (init P) past s) (k : Nat) :
    ErrorReported past s k ↔ LastTells past s k := by
  constructor
  · intro told burst here some
    obtain ⟨response, responds⟩ := Option.isSome_iff_exists.mp some
    obtain ⟨front, a, rfl, -, bit⟩ := response_last reached here responds
    have told := told _ _ here responds
    rw [bit] at told
    cases error : a.2.error with
    | true => exact .inl ⟨a, by simp, error⟩
    | false =>
      right
      intro x among
      by_contra failed
      have signal := told.mpr ⟨x, among, by simpa using failed⟩
      rw [error] at signal
      cases signal
  · intro tells burst response here responds
    obtain ⟨front, a, rfl, -, bit⟩ := response_last reached here responds
    rw [bit]
    rcases tells _ here (by rw [responds]; rfl) with ⟨last, final, failed⟩ | none
    · obtain rfl : a = last := by simpa using final
      exact iff_of_true failed ⟨a, by simp, failed⟩
    · refine iff_of_false ?_ ?_
      · rw [none a (by simp)]
        exact Bool.false_ne_true
      · rintro ⟨x, among, failed⟩
        rw [none x among] at failed
        cases failed

/-! ## A burst whose first beat fails -/

/-- A write of two beats, of which the first is answered with an error. -/
def firstBeatFails : List (FromAxiIn bytes) :=
  let aw : bytes.Aw := { addr := 4, id := 0, len := 1, size := 0, qos := 0, lock := false, atop := 0 }
  let w : bytes.W := { data := 7, strb := 1, last := false }
  let first : FromAxiIn bytes :=
    { arValid := false, ar := aw.toArChan, awValid := true, aw := aw, wValid := true, w := w,
      rReady := true, bReady := true, qReady := true, pValid := false, p := ⟨0, false⟩ }
  let second : FromAxiIn bytes := { first with awValid := false, pValid := true, p := ⟨0, true⟩ }
  let rest : FromAxiIn bytes := { second with wValid := false, p := ⟨0, false⟩ }
  [first, second, rest]

theorem firstBeatFails_reached : (machine bytes).Reaches steady (init bytes)
    ((machine bytes).trace (init bytes) firstBeatFails)
    ((machine bytes).run (init bytes) firstBeatFails) := by
  refine (machine bytes).reaches_run (init bytes) firstBeatFails ⟨?_, ?_, ?_, trivial⟩
  all_goals
    refine ⟨?_, ?_, ?_, ?_⟩
    all_goals
      intro x kept
      revert x
      decide

theorem errorReported_iff_firstBeatFails :
    ErrorReported ((machine bytes).trace (init bytes) firstBeatFails)
        ((machine bytes).run (init bytes) firstBeatFails) 0 ↔
      LastTells ((machine bytes).trace (init bytes) firstBeatFails)
        ((machine bytes).run (init bytes) firstBeatFails) 0 :=
  errorReported_iff firstBeatFails_reached 0

/-- **The error of an early beat is swallowed**: the burst is answered with `OKAY`. -/
theorem early_error_swallowed :
    (bBeats ((machine bytes).trace (init bytes) firstBeatFails)).map BChan.resp = [0] ∧
      ((burstAnswers ((machine bytes).trace (init bytes) firstBeatFails)
          ((machine bytes).run (init bytes) firstBeatFails)).map fun burst =>
        burst.map fun a => a.2.error) = [[true, false]] ∧
      ¬ErrorReported ((machine bytes).trace (init bytes) firstBeatFails)
        ((machine bytes).run (init bytes) firstBeatFails) 0 := by
  have answers : ((burstAnswers ((machine bytes).trace (init bytes) firstBeatFails)
      ((machine bytes).run (init bytes) firstBeatFails)).map fun burst =>
        burst.map fun a => a.2.error) = [[true, false]] := by decide
  refine ⟨by decide, answers, fun told => ?_⟩
  obtain ⟨burst, rest, split, failed, -⟩ := List.map_eq_cons_iff.mp answers
  obtain ⟨a, others, rfl, error, -⟩ := List.map_eq_cons_iff.mp failed
  have signal := (told (a :: others) ⟨0, 0⟩ (by rw [split]; rfl) (by decide)).mpr ⟨a, by simp, error⟩
  exact absurd signal (by decide)

end SnitchCluster.Reqrsp.FromAxi
