/-
# Trace.Nest -- loop nests, what they expand to and what the model makes of them

A nest of FREP loops is a chain: a body holds at most one loop directly.  `expansion` is
what the nest stands for.  `emitted` is what the model of the sequencer issues instead: a
loop whose body starts with an inner one finds it in its first iteration only, and goes
through the instructions one by one in the others.  `emitted_eq_iff` says when that is the
same.

A `Spot` is a place in a nest, as a loop and the loops around it, innermost first.
`Spot.next` goes from instruction to instruction, and `left` is what is still to be
issued: `left_next` is the whole argument that a walk from spot to spot issues `emitted`.
-/
import SnitchCluster.Trace.Sequencer

namespace SnitchCluster.Trace

/-- An instruction other than an FREP. -/
structure Line where
  pc : String
  sec : Nat
  deriving DecidableEq, Repr

/-- An FREP; the number of its instructions is told by the nest. -/
structure FrepLine extends Line where
  maxIter : Nat
  stgMax : Nat
  stgMask : Nat
  deriving DecidableEq, Repr

/-- A nest of loops.  A body is not empty. -/
inductive Nest where
  | flat (frep : FrepLine) (first : Line) (rest : List Line)
  | around (frep : FrepLine) (before : List Line) (inner : Nest) (after : List Line)
  deriving Repr

namespace Nest

def frep : Nest → FrepLine
  | flat frep _ _ => frep
  | around frep _ _ _ => frep

def maxIter (N : Nest) : Nat := N.frep.maxIter

/-- The instructions of the body, each once. -/
def body : Nest → List Line
  | flat _ first rest => first :: rest
  | around _ before inner after => before ++ inner.body ++ after

def size (N : Nest) : Nat := N.body.length

def depth : Nest → Nat
  | flat _ _ _ => 1
  | around _ _ inner _ => inner.depth + 1

/-- A list several times over. -/
def times {α : Type} (n : Nat) (l : List α) : List α := (List.replicate n l).flatten

/-- Each body `maxIter + 1` times per iteration of its parent. -/
def expansion : Nest → List Line
  | flat frep first rest => times (frep.maxIter + 1) (first :: rest)
  | around frep before inner after =>
    times (frep.maxIter + 1) (before ++ inner.expansion ++ after)

/-- What the model issues. -/
def emitted : Nest → List Line
  | flat frep first rest => times (frep.maxIter + 1) (first :: rest)
  | around frep before inner after =>
    (before ++ inner.emitted ++ after) ++ times frep.maxIter
      (if before = [] then inner.body ++ after else before ++ inner.emitted ++ after)

/-- No loop of the nest is iterated. -/
def Single : Nest → Prop
  | flat frep _ _ => frep.maxIter = 0
  | around frep _ inner _ => frep.maxIter = 0 ∧ inner.Single

/-- A loop that is iterated does not start with an inner loop, unless nothing in that is
iterated. -/
def Reentered : Nest → Prop
  | flat _ _ _ => True
  | around frep before inner _ =>
    inner.Reentered ∧ (before = [] → frep.maxIter = 0 ∨ inner.Single)

instance decidableSingle : (N : Nest) → Decidable N.Single
  | flat frep _ _ => inferInstanceAs (Decidable (frep.maxIter = 0))
  | around _ _ inner _ =>
    have := decidableSingle inner
    inferInstanceAs (Decidable (_ ∧ _))

instance decidableReentered : (N : Nest) → Decidable N.Reentered
  | flat _ _ _ => inferInstanceAs (Decidable True)
  | around _ _ inner _ =>
    have := decidableReentered inner
    inferInstanceAs (Decidable (_ ∧ (_ → _ ∨ _)))

/-! ## When the model issues the expansion -/

@[simp] theorem times_zero {α : Type} (l : List α) : times 0 l = [] := rfl

@[simp] theorem times_succ {α : Type} (n : Nat) (l : List α) :
    times (n + 1) l = l ++ times n l := rfl

@[simp] theorem length_times {α : Type} (n : Nat) (l : List α) :
    (times n l).length = n * l.length := by
  induction n with
  | zero => simp
  | succ n ih => rw [times_succ, List.length_append, ih, Nat.succ_mul, Nat.add_comm]

theorem size_pos (N : Nest) : 0 < N.size := by
  induction N with
  | flat frep first rest => exact Nat.succ_pos _
  | around frep before inner after ih =>
    rw [size] at ih ⊢
    rw [body, List.length_append, List.length_append]
    omega

/-- A body is not longer than what it expands to, and as long only if nothing is iterated. -/
theorem size_le_expansion (N : Nest) : N.size ≤ N.expansion.length ∧
    (N.size = N.expansion.length ↔ N.Single) := by
  induction N with
  | flat frep first rest =>
    simp only [size, body, expansion, length_times, Single, List.length_cons, Nat.succ_mul]
    constructor
    · exact Nat.le_add_left _ _
    · rw [Nat.right_eq_add, Nat.mul_eq_zero]
      omega
  | around frep before inner after ih =>
    obtain ⟨le, eq⟩ := ih
    have some : 0 < inner.size := inner.size_pos
    simp only [size, body, expansion, length_times, Single, List.length_append,
      Nat.succ_mul] at le eq some ⊢
    generalize grows : before.length + inner.expansion.length + after.length = total
    constructor
    · omega
    · rw [← eq]
      constructor
      · intro same
        have none : frep.maxIter * total = 0 := by omega
        exact ⟨(Nat.mul_eq_zero.mp none).resolve_right (by omega), by omega⟩
      · rintro ⟨once, same⟩
        rw [once]
        omega

/-- Nothing is iterated: the expansion is the body. -/
theorem expansion_of_single {N : Nest} (single : N.Single) : N.expansion = N.body := by
  induction N with
  | flat frep first rest => simp [expansion, body, show frep.maxIter = 0 from single]
  | around frep before inner after ih => simp [expansion, body, single.1, ih single.2]

theorem emitted_of_reentered {N : Nest} (good : N.Reentered) : N.emitted = N.expansion := by
  induction N with
  | flat frep first rest => rfl
  | around frep before inner after ih =>
    rw [emitted, expansion, ih good.1, times_succ]
    split
    · next starts =>
        rcases good.2 starts with once | single
        · rw [once]
          rfl
        · rw [expansion_of_single single, starts, List.nil_append]
    · rfl

/-- The model never issues more than the expansion, and as much only if every loop is
entered again. -/
theorem emitted_le (N : Nest) : N.emitted.length ≤ N.expansion.length ∧
    (N.emitted.length = N.expansion.length → N.Reentered) := by
  induction N with
  | flat frep first rest => exact ⟨Nat.le_refl _, fun _ => trivial⟩
  | around frep before inner after ih =>
    obtain ⟨le, reentered⟩ := ih
    obtain ⟨small, single⟩ := inner.size_le_expansion
    rw [size] at small single
    simp only [emitted, expansion, length_times, List.length_append, Nat.succ_mul]
    by_cases starts : before = []
    · simp only [starts, if_pos, List.length_append, List.length_nil, Nat.zero_add]
      have less : frep.maxIter * (inner.body.length + after.length) ≤
          frep.maxIter * (inner.expansion.length + after.length) :=
        Nat.mul_le_mul_left _ (by omega)
      refine ⟨by omega, fun same => ⟨reentered (by omega), fun _ => ?_⟩⟩
      have equal : frep.maxIter * (inner.body.length + after.length) =
          frep.maxIter * (inner.expansion.length + after.length) := by omega
      rcases Nat.eq_zero_or_pos frep.maxIter with once | again
      · exact .inl once
      · have same := Nat.eq_of_mul_eq_mul_left again equal
        exact .inr (single.mp (by omega))
    · simp only [if_neg starts, List.length_append]
      have less : frep.maxIter * (before.length + inner.emitted.length + after.length) ≤
          frep.maxIter * (before.length + inner.expansion.length + after.length) :=
        Nat.mul_le_mul_left _ (by omega)
      exact ⟨by omega, fun same => ⟨reentered (by omega), fun other => absurd other starts⟩⟩

/-- What is left of an iteration of the loop from an offset on. -/
def rest : Nest → Nat → List Line
  | flat _ first rest, off => (first :: rest).drop off
  | around _ before inner after, off =>
    if off < before.length then before.drop off ++ inner.emitted ++ after
    else (before ++ inner.body ++ after).drop off

theorem emitted_around {frep : FrepLine} {before : List Line} {inner : Nest} {after : List Line} :
    (around frep before inner after).emitted = before ++ inner.emitted ++ after ++
      times frep.maxIter ((around frep before inner after).rest 0) := by
  rw [emitted, rest]
  cases before with
  | nil => rfl
  | cons first before => rfl

/-- Past the body. -/
theorem rest_size (N : Nest) : N.rest N.size = [] := by
  cases N with
  | flat frep first rest => exact List.drop_length
  | around frep before inner after =>
    have past : ¬(around frep before inner after).size < before.length := by
      rw [size, body, List.length_append, List.length_append]
      omega
    rw [rest, if_neg past]
    exact List.drop_length

/-- One instruction of the loop itself, the next one not of the inner loop. -/
theorem rest_cons {N : Nest} {off : Nat} {x : Line} (here : N.body[off]? = some x)
    (own : ∀ frep before inner after, N = around frep before inner after →
      off + 1 ≠ before.length) : N.rest off = x :: N.rest (off + 1) := by
  obtain ⟨short, rfl⟩ := List.getElem?_eq_some_iff.mp here
  cases N with
  | flat frep first rest => exact List.drop_eq_getElem_cons short
  | around frep before inner after =>
    have apart := own frep before inner after rfl
    rw [rest, rest]
    by_cases early : off < before.length
    · have split := List.drop_eq_getElem_cons early
      have same : (around frep before inner after).body[off] = before[off] := by
        simp only [body, List.append_assoc]
        exact List.getElem_append_left early
      rw [if_pos early, if_pos (by omega), split, same]
      rfl
    · rw [if_neg early, if_neg (by omega)]
      exact List.drop_eq_getElem_cons short

/-- The last instruction before the inner loop. -/
theorem rest_before {frep : FrepLine} {before : List Line} {inner : Nest} {after : List Line}
    {off : Nat} {x : Line} (here : (around frep before inner after).body[off]? = some x)
    (last : off + 1 = before.length) :
    (around frep before inner after).rest off = x :: (inner.emitted ++ after) := by
  have early : off < before.length := by omega
  have split := List.drop_eq_getElem_cons early
  have same : before[off] = x := by
    simp only [body, List.append_assoc, List.getElem?_append_left early] at here
    rw [List.getElem?_eq_getElem early] at here
    exact Option.some.inj here
  rw [rest, if_pos early, split, same, last, List.drop_length]
  rfl

end Nest

/-! ## Places in a nest -/

/-- A loop around another, in one of its iterations. -/
structure Frame where
  frep : FrepLine
  before : List Line
  after : List Line
  iter : Nat

def Frame.plug (f : Frame) (N : Nest) : Nest := .around f.frep f.before N f.after

/-- An instruction of the active loop: the loops around it, innermost first, its iteration,
and the offset in its body.  `entered` tells whether the loops inside it were entered
before. -/
structure Spot where
  ctx : List Frame
  nest : Nest
  iter : Nat
  off : Nat
  entered : Bool

/-- The first instruction of a nest, in the innermost of the loops that start there. -/
def dive (entered : Bool) : List Frame → Nest → Spot
  | ctx, .around frep [] inner after => dive entered (⟨frep, [], after, 0⟩ :: ctx) inner
  | ctx, .around frep (x :: before) inner after =>
    ⟨ctx, .around frep (x :: before) inner after, 0, 0, entered⟩
  | ctx, .flat frep first rest => ⟨ctx, .flat frep first rest, 0, 0, entered⟩

/-- The loop that goes on when the nest is finished, at the last instruction it issued. -/
def popped : List Frame → Nest → Option Spot
  | [], _ => none
  | f :: ctx, N =>
    if f.iter = f.frep.maxIter ∧ f.after = [] then popped ctx (f.plug N)
    else some ⟨ctx, f.plug N, f.iter, f.before.length + N.size - 1, true⟩

/-- What is left around a nest once it is finished. -/
def leftOutside : List Frame → Nest → List Line
  | [], _ => []
  | f :: ctx, N =>
    f.after ++ Nest.times (f.frep.maxIter - f.iter) ((f.plug N).rest 0) ++
      leftOutside ctx (f.plug N)

namespace Spot

variable (p : Spot)

/-- The following instruction of the loop, or the first one of the inner loop. -/
def following : Spot :=
  match p.nest with
  | .flat _ _ _ => { p with off := p.off + 1 }
  | .around frep before inner after =>
    if p.off + 1 = before.length then dive p.entered (⟨frep, before, after, p.iter⟩ :: p.ctx) inner
    else { p with off := p.off + 1 }

/-- The first instruction of the next iteration: no inner loop is entered. -/
def restarted : Spot := { p with iter := p.iter + 1, off := 0, entered := true }

/-- What a loop that goes on does next. -/
def resumed : Spot := if p.off + 1 < p.nest.size then { p with off := p.off + 1 } else p.restarted

def next : Option Spot :=
  if p.off + 1 < p.nest.size then some p.following
  else if p.iter < p.nest.maxIter then some p.restarted
  else (popped p.ctx p.nest).map resumed

/-- What is still to be issued. -/
def left : List Line :=
  p.nest.rest p.off ++ Nest.times (p.nest.maxIter - p.iter) (p.nest.rest 0) ++
    leftOutside p.ctx p.nest

structure Valid : Prop where
  iter : p.iter ≤ p.nest.maxIter
  off : p.off < p.nest.size
  ctx : ∀ f ∈ p.ctx, f.iter ≤ f.frep.maxIter
  early : p.entered = false → ∀ frep before inner after,
    p.nest = .around frep before inner after → p.off < before.length

end Spot

theorem Frame.size_plug (f : Frame) (N : Nest) :
    (f.plug N).size = f.before.length + N.size + f.after.length := by
  rw [plug, Nest.size, Nest.body, List.length_append, List.length_append, Nest.size]

/-! ## A walk from spot to spot -/

theorem left_dive (entered : Bool) (ctx : List Frame) (N : Nest) :
    (dive entered ctx N).left = N.emitted ++ leftOutside ctx N := by
  induction N generalizing ctx with
  | flat frep first rest => rfl
  | around frep before inner after ih =>
    cases before with
    | nil =>
      rw [dive, ih, leftOutside, Nest.emitted_around, Nat.sub_zero]
      simp only [List.append_assoc, List.nil_append]
      rfl
    | cons x before =>
      rw [Nest.emitted_around]
      rfl

theorem dive_valid (entered : Bool) {ctx : List Frame} (N : Nest)
    (outer : ∀ f ∈ ctx, f.iter ≤ f.frep.maxIter) : (dive entered ctx N).Valid := by
  induction N generalizing ctx with
  | flat frep first rest =>
    refine ⟨Nat.zero_le _, Nat.succ_pos _, outer, fun _ frep before inner after same => ?_⟩
    cases same
  | around frep before inner after ih =>
    cases before with
    | nil =>
      apply ih
      intro f mem
      rcases List.mem_cons.mp mem with rfl | mem
      · exact Nat.zero_le _
      · exact outer f mem
    | cons x before =>
      refine ⟨Nat.zero_le _, Nest.size_pos _, outer, fun _ frep' before' inner' after' same => ?_⟩
      cases same
      exact Nat.succ_pos _

/-- What is left around a finished nest is what the resumed loop has left. -/
theorem leftOutside_eq {ctx : List Frame} (N : Nest)
    (outer : ∀ f ∈ ctx, f.iter ≤ f.frep.maxIter) : leftOutside ctx N =
      match (popped ctx N).map Spot.resumed with
      | none => []
      | some q => q.left := by
  induction ctx generalizing N with
  | nil => rfl
  | cons f ctx ih =>
    have bound : f.iter ≤ f.frep.maxIter := outer f List.mem_cons_self
    have ih := ih (f.plug N) fun g mem => outer g (List.mem_cons_of_mem f mem)
    have some := N.size_pos
    rw [leftOutside, popped]
    by_cases finished : f.iter = f.frep.maxIter ∧ f.after = []
    · rw [if_pos finished, finished.1, finished.2, Nat.sub_self, ← ih]
      rfl
    · rw [if_neg finished, Option.map_some, Spot.resumed]
      have size := f.size_plug N
      by_cases more : f.after = []
      · -- another iteration
        have again : f.iter < f.frep.maxIter := by
          have unequal : f.iter ≠ f.frep.maxIter := fun same => finished ⟨same, more⟩
          omega
        rw [more, List.length_nil] at size
        rw [more, if_neg (by simp only; omega)]
        show [] ++ Nest.times (f.frep.maxIter - f.iter) _ ++ _ =
          _ ++ Nest.times (f.frep.maxIter - (f.iter + 1)) _ ++ _
        rw [show f.frep.maxIter - f.iter = f.frep.maxIter - (f.iter + 1) + 1 by omega]
        simp [Spot.restarted]
      · have long : 0 < f.after.length := List.length_pos_iff.mpr more
        rw [if_pos (by simp only; omega)]
        show f.after ++ _ ++ _ = (f.plug N).rest _ ++ _ ++ _
        have past : f.before.length + N.size - 1 + 1 = (f.before ++ N.body).length := by
          rw [List.length_append, ← Nest.size]
          omega
        have rest : (f.plug N).rest (f.before.length + N.size - 1 + 1) = f.after := by
          rw [Frame.plug, Nest.rest, if_neg (by omega), past, List.drop_left]
        rw [rest]
        rfl

theorem popped_valid {ctx : List Frame} {N : Nest} {q : Spot}
    (outer : ∀ f ∈ ctx, f.iter ≤ f.frep.maxIter) (pops : popped ctx N = some q) :
    q.Valid ∧ (q.off + 1 < q.nest.size ∨ q.iter < q.nest.maxIter) ∧ q.entered = true := by
  induction ctx generalizing N with
  | nil => cases pops
  | cons f ctx ih =>
    have bound : f.iter ≤ f.frep.maxIter := outer f List.mem_cons_self
    have outer' : ∀ g ∈ ctx, g.iter ≤ g.frep.maxIter :=
      fun g mem => outer g (List.mem_cons_of_mem f mem)
    have some := N.size_pos
    have size := f.size_plug N
    rw [popped] at pops
    split at pops
    · exact ih outer' pops
    · next goes =>
        cases pops
        refine ⟨⟨bound, ?_, outer', fun fresh => absurd fresh (by simp)⟩, ?_, rfl⟩
        · show f.before.length + N.size - 1 < (f.plug N).size
          omega
        · show f.before.length + N.size - 1 + 1 < (f.plug N).size ∨ f.iter < f.frep.maxIter
          by_cases more : f.after = []
          · have unequal : f.iter ≠ f.frep.maxIter := fun same => goes ⟨same, more⟩
            omega
          · have long : 0 < f.after.length := List.length_pos_iff.mpr more
            omega

namespace Spot

variable {p : Spot}

/-- Away from the inner loop the next instruction is the loop's own. -/
theorem following_of_apart (apart : ∀ frep before inner after,
    p.nest = .around frep before inner after → p.off + 1 ≠ before.length) :
    p.following = { p with off := p.off + 1 } := by
  unfold following
  split
  · rfl
  · next same => rw [if_neg (apart _ _ _ _ same)]

/-- The size of a body is beyond what comes before the inner loop. -/
theorem size_apart {N : Nest} : ∀ frep before inner after,
    N = .around frep before inner after → N.size ≠ before.length := by
  rintro frep before inner after rfl
  have some := inner.size_pos
  have size := (Frame.mk frep before after 0).size_plug inner
  show ((Frame.mk frep before after 0).plug inner).size ≠ _
  simp only at size
  omega

/-- **A walk issues what is left**: one instruction a step. -/
theorem left_next (valid : p.Valid) {x : Line} (here : p.nest.body[p.off]? = some x) :
    p.left = x :: match p.next with
      | none => []
      | some q => q.left := by
  rw [next, left]
  by_cases more : p.off + 1 < p.nest.size
  · rw [if_pos more]
    by_cases door : ∃ frep before inner after, p.nest = .around frep before inner after ∧
        p.off + 1 = before.length
    · obtain ⟨frep, before, inner, after, same, last⟩ := door
      rw [same] at here
      have dives : p.following = dive p.entered (⟨frep, before, after, p.iter⟩ :: p.ctx) inner := by
        unfold following
        rw [same]
        exact if_pos last
      simp only
      rw [dives, left_dive, leftOutside, same, Nest.rest_before here last]
      simp only [List.cons_append, List.append_assoc]
      rfl
    · have apart : ∀ frep before inner after, p.nest = .around frep before inner after →
          p.off + 1 ≠ before.length :=
        fun frep before inner after same last => door ⟨frep, before, inner, after, same, last⟩
      simp only
      rw [following_of_apart apart, Nest.rest_cons here apart]
      rfl
  · have last : p.off + 1 = p.nest.size := by
      have short := valid.off
      omega
    have single : p.nest.rest p.off = [x] := by
      rw [Nest.rest_cons here (last ▸ size_apart), last, Nest.rest_size]
    rw [if_neg more, single]
    by_cases again : p.iter < p.nest.maxIter
    · rw [if_pos again,
        show p.nest.maxIter - p.iter = p.nest.maxIter - (p.iter + 1) + 1 by omega]
      simp [restarted, left]
    · have done : p.nest.maxIter - p.iter = 0 := by
        have bound := valid.iter
        omega
      rw [if_neg again, done, leftOutside_eq p.nest valid.ctx]
      rfl

theorem next_valid (valid : p.Valid) {q : Spot} (goes : p.next = some q) : q.Valid := by
  rw [next] at goes
  by_cases more : p.off + 1 < p.nest.size
  · rw [if_pos more] at goes
    cases goes
    unfold following
    split
    · next same =>
        refine ⟨valid.iter, more, valid.ctx, fun _ frep before inner after other => ?_⟩
        rw [same] at other
        cases other
    · next frep before inner after same =>
        split
        · apply dive_valid
          intro f mem
          rcases List.mem_cons.mp mem with rfl | mem
          · have bound := valid.iter
            rw [same] at bound
            exact bound
          · exact valid.ctx f mem
        · next apart =>
            refine ⟨valid.iter, more, valid.ctx, fun fresh frep' before' inner' after' other => ?_⟩
            have early := valid.early fresh _ _ _ _ other
            rw [same] at other
            cases other
            show p.off + 1 < before.length
            omega
  · rw [if_neg more] at goes
    by_cases again : p.iter < p.nest.maxIter
    · rw [if_pos again] at goes
      cases goes
      exact ⟨again, p.nest.size_pos, valid.ctx, fun fresh => absurd fresh (by simp [restarted])⟩
    · rw [if_neg again] at goes
      obtain ⟨r, pops, rfl⟩ := Option.map_eq_some_iff.mp goes
      obtain ⟨valid, goes, entered⟩ := popped_valid valid.ctx pops
      unfold resumed
      split
      · next more =>
          exact ⟨valid.iter, more, valid.ctx, fun fresh => absurd fresh (by simp [entered])⟩
      · next last =>
          exact ⟨goes.resolve_left last, r.nest.size_pos, valid.ctx,
            fun fresh => absurd fresh (by simp [restarted])⟩

end Spot

end SnitchCluster.Trace
