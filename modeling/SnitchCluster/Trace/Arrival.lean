/-
# Trace.Arrival -- pushes and issues in any order

The trace shows an instruction of a nest pushed before it is issued, but not that the
whole nest is pushed by then.  `emulate` does not look beyond the instruction it issues:
`emulate_extend` says that entries at the end of the queue make no difference to it.  So
whatever the order of the calls, the sequencer with the entries still to be pushed at its
end is where it would be had they been pushed first, and `Stands` carries over.

`issues_iff` is the result: the model issues the expansion of a nest, in any order of the
calls, exactly when no loop that is iterated starts with another.
-/
import SnitchCluster.Trace.Emulation

namespace SnitchCluster.Trace

/-! ## Entries at the end -/

theorem modify_append {α : Type} {l r : List α} {n : Nat} (short : n < l.length) (f : α → α) :
    (l ++ r).modify n f = l.modify n f ++ r := by
  induction l generalizing n with
  | nil => cases short
  | cons a l ih =>
    cases n with
    | zero => rfl
    | succ n =>
      rw [List.cons_append, List.modify_succ_cons, List.modify_succ_cons,
        ih (Nat.lt_of_succ_lt_succ short), List.cons_append]

namespace Sequencer

section Extend

variable {es : List Entry}

theorem propagate_append {cfg more : List LoopCfg} {k : Nat} (short : k < cfg.length) :
    propagate k (cfg ++ more) = (propagate k cfg).map (· ++ more) := by
  induction k generalizing cfg with
  | zero => rfl
  | succ k ih =>
    rw [propagate, propagate, List.getElem?_append_left short, List.getElem?_eq_getElem short]
    simp only [Option.bind_eq_bind, Option.bind_some]
    cases (cfg[k + 1]).lastIter with
    | none => rfl
    | some last =>
      cases last with
      | false => rfl
      | true =>
        have here : k < cfg.length := by omega
        simp only [Option.bind_some, if_true]
        rw [modify_append here, ih (by rw [List.length_modify]; exact here)]

theorem length_propagate {cfg cfg' : List LoopCfg} {k : Nat} (goes : propagate k cfg = some cfg') :
    cfg'.length = cfg.length := by
  induction k generalizing cfg with
  | zero =>
    cases goes
    rfl
  | succ k ih =>
    rw [propagate] at goes
    obtain ⟨c, -, goes⟩ := Option.bind_eq_some_iff.mp goes
    obtain ⟨last, -, goes⟩ := Option.bind_eq_some_iff.mp goes
    split at goes
    · rw [ih goes, List.length_modify]
    · cases goes
      rfl

theorem unwind_append {cfg more : List LoopCfg} {n : Nat} (short : n ≤ cfg.length) :
    unwind n (cfg ++ more) = (unwind n cfg).map fun r => (r.1, r.2 ++ more) := by
  induction n generalizing cfg with
  | zero => rfl
  | succ n ih =>
    have here : n < cfg.length := short
    rw [unwind, unwind, List.getElem?_append_left here, List.getElem?_eq_getElem here]
    simp only [Option.bind_eq_bind, Option.bind_some]
    cases (cfg[n]).lastIter with
    | none => rfl
    | some last =>
      cases (cfg[n]).lastInst with
      | none => rfl
      | some inst =>
        simp only [Option.bind_some]
        split
        · rw [modify_append here, ih (by rw [List.length_modify]; omega)]
        · rfl

/-- What unwinding leaves: as many loops, and the active one among those unwound. -/
theorem unwind_some {cfg cfg' : List LoopCfg} {n : Nat} {j : Option Nat}
    (goes : unwind n cfg = some (j, cfg')) : cfg'.length = cfg.length ∧ succIdx j ≤ n ∧
      (cfg'[0]?.bind LoopCfg.frep) = cfg[0]?.bind LoopCfg.frep := by
  induction n generalizing cfg with
  | zero =>
    cases goes
    exact ⟨rfl, Nat.le_refl 0, rfl⟩
  | succ n ih =>
    rw [unwind] at goes
    obtain ⟨c, -, goes⟩ := Option.bind_eq_some_iff.mp goes
    obtain ⟨last, -, goes⟩ := Option.bind_eq_some_iff.mp goes
    obtain ⟨inst, -, goes⟩ := Option.bind_eq_some_iff.mp goes
    split at goes
    · obtain ⟨size, bound, first⟩ := ih goes
      rw [List.length_modify] at size
      refine ⟨size, by omega, ?_⟩
      rw [first, List.getElem?_modify]
      cases cfg[0]? with
      | none => rfl
      | some c => cases n <;> rfl
    · cases goes
      exact ⟨rfl, Nat.le_refl _, rfl⟩

theorem descend_append {rd k : Nat} (cfg : List LoopCfg) (pos : 0 < rd) :
    descend rd (cfg ++ es.flatMap Entry.cfgs) k = descend rd cfg k := by
  induction cfg generalizing k with
  | nil =>
    apply descend_apart
    intro c head
    rw [later_base head]
    omega
  | cons c cfg ih =>
    rw [List.cons_append, descend, descend, ih]

theorem advance_extend {s : Sequencer} {k : Nat} (short : k < s.loopCfg.length) :
    (s.extend es).advance k = (s.advance k).map (extend · es) := by
  rw [advance, advance, extend]
  simp only
  rw [modify_append short, propagate_append (by rw [List.length_modify]; exact short)]
  cases propagate k (s.loopCfg.modify k LoopCfg.bump) <;> rfl

theorem restart_extend {s : Sequencer} {k : Nat} (short : k < s.loopCfg.length) :
    (s.extend es).restart k = (s.restart k).map (extend · es) := by
  rw [restart, restart, extend]
  simp only
  rw [modify_append short, List.getElem?_append_left short]
  cases s.loopCfg[k]? <;> rfl

/-- The queue holds all of the nest, and its loops were pushed. -/
structure Whole (s : Sequencer) : Prop where
  loops : 0 < s.loopCfg.length
  depth : s.nestDepth ≤ s.loopCfg.length
  insns : ∀ f, s.loopCfg[0]?.bind LoopCfg.frep = some f → f.maxInst < s.insns.length

theorem finish_extend {s : Sequencer} (whole : s.Whole) :
    (s.extend es).finish = s.finish.map (extend · es) := by
  rw [finish, finish, extend]
  simp only
  rw [List.getElem?_append_left whole.loops]
  cases first : s.loopCfg[0]? with
  | none => rfl
  | some c =>
    simp only [Option.bind_eq_bind, Option.bind_some]
    cases frep : c.frep with
    | none => rfl
    | some f =>
      have fits := whole.insns f (by rw [first]; exact frep)
      simp only [Option.bind_some, Option.map_some]
      rw [List.drop_append_of_le_length fits, List.drop_append_of_le_length whole.depth]
      rfl

section

variable {s : Sequencer} {k : Nat} (short : k < s.loopCfg.length)

include short

theorem leave_extend
    (whole : ∀ cfg, unwind k (s.loopCfg.modify k LoopCfg.reset) = some (none, cfg) → s.Whole) :
    (s.extend es).leave k = (s.leave k).map (extend · es) := by
  have size : (s.loopCfg.modify k LoopCfg.reset).length = s.loopCfg.length := List.length_modify ..
  have cfg : (s.extend es).loopCfg.modify k LoopCfg.reset =
      s.loopCfg.modify k LoopCfg.reset ++ es.flatMap Entry.cfgs := modify_append short _
  rw [leave, leave, cfg, unwind_append (by omega)]
  cases goes : unwind k (s.loopCfg.modify k LoopCfg.reset) with
  | none => rfl
  | some r =>
    obtain ⟨j, left⟩ := r
    obtain ⟨same, bound, first⟩ := unwind_some goes
    simp only [Option.map_some, Option.bind_eq_bind, Option.bind_some]
    cases j with
    | none =>
      have before := whole left goes
      have whole' : Whole { s with loopIdx := none, loopCfg := left } := by
        refine ⟨?_, ?_, fun f frep => before.insns f ?_⟩
        · show 0 < left.length
          omega
        · show s.nestDepth ≤ left.length
          have depth := before.depth
          omega
        · rw [first, List.getElem?_modify] at frep
          rw [← frep]
          cases s.loopCfg[0]? with
          | none => rfl
          | some c => cases k <;> rfl
      exact finish_extend whole'
    | some j =>
      have bound : j + 1 ≤ k := bound
      have here : j < left.length := by omega
      have look : (left ++ es.flatMap Entry.cfgs)[j]? = left[j]? := List.getElem?_append_left here
      simp only [look]
      cases left[j]? with
      | none => rfl
      | some c =>
        simp only [Option.bind_some]
        cases c.lastInst with
        | none => rfl
        | some inst =>
          have advances :=
            @advance_extend es { s with loopIdx := some j, loopCfg := left } j here
          have restarts :=
            @restart_extend es { s with loopIdx := some j, loopCfg := left } j here
          cases inst with
          | false => exact advances
          | true => exact restarts

theorem wrap_extend (whole : ∀ c cfg, s.loopCfg[k]? = some c → c.lastIter = some true →
      unwind k (s.loopCfg.modify k LoopCfg.reset) = some (none, cfg) → s.Whole) :
    (s.extend es).wrap k = (s.wrap k).map (extend · es) := by
  have look : (s.extend es).loopCfg[k]? = s.loopCfg[k]? := List.getElem?_append_left short
  have here : s.loopCfg[k]? = some s.loopCfg[k] := List.getElem?_eq_getElem short
  rw [wrap, wrap, look, here]
  simp only [Option.bind_eq_bind, Option.bind_some]
  cases iter : (s.loopCfg[k]).lastIter with
  | none => rfl
  | some last =>
    cases last with
    | false => exact restart_extend short
    | true => exact leave_extend short fun cfg => whole _ cfg here iter

theorem issued_extend
    (whole : ∀ c cfg, s.loopCfg[k]? = some c → c.lastInst = some true → c.lastIter = some true →
      unwind k (s.loopCfg.modify k LoopCfg.reset) = some (none, cfg) → s.Whole) :
    (s.extend es).issued k = (s.issued k).map (extend · es) := by
  have look : (s.extend es).loopCfg[k]? = s.loopCfg[k]? := List.getElem?_append_left short
  have here : s.loopCfg[k]? = some s.loopCfg[k] := List.getElem?_eq_getElem short
  rw [issued, issued, look, here]
  simp only [Option.bind_eq_bind, Option.bind_some]
  cases inst : (s.loopCfg[k]).lastInst with
  | none => rfl
  | some last =>
    cases last with
    | false =>
      simp only [Option.bind_some, Bool.not_false, if_true, advance_extend short]
      cases goes : s.advance k with
      | none => rfl
      | some s' =>
        rw [advance] at goes
        obtain ⟨cfg, moves, goes⟩ := Option.bind_eq_some_iff.mp goes
        cases goes
        have size := length_propagate moves
        rw [List.length_modify] at size
        simp only [Option.map_some, extend]
        rw [List.drop_append_of_le_length (by omega), descend_append _ (Nat.succ_pos _)]
    | true =>
      exact wrap_extend short fun c cfg same => whole c cfg same (by
        rw [here] at same
        rw [← Option.some.inj same]
        exact inst)

end

/-- **An issue does not look beyond the instruction it issues.** -/
theorem issue_extend {s : Sequencer} (here : s.rdPtr < s.insns.length)
    (short : ∀ k, s.loopIdx = some k → k < s.loopCfg.length)
    (whole : ∀ k c cfg, s.loopIdx = some k → s.loopCfg[k]? = some c → c.lastInst = some true →
      c.lastIter = some true →
      unwind k (s.loopCfg.modify k LoopCfg.reset) = some (none, cfg) → s.Whole) :
    (s.extend es).issue = s.issue.map fun r => (r.1, r.2.extend es) := by
  have look : (s.extend es).insns[(s.extend es).rdPtr]? = s.insns[s.rdPtr]? :=
    List.getElem?_append_left here
  have same : (s.extend es).loopIdx = s.loopIdx := rfl
  rw [issue, issue, look, same, List.getElem?_eq_getElem here]
  simp only [Option.bind_eq_bind, Option.bind_some]
  cases index : s.loopIdx with
  | none =>
    have erased : (s.extend es).insns.eraseIdx (s.extend es).rdPtr =
        s.insns.eraseIdx s.rdPtr ++ es.map Entry.insn := List.eraseIdx_append_of_lt_length here _
    simp only [erased]
    rfl
  | some k =>
    have short := short k index
    have cfg : (s.extend es).loopCfg[k]? = s.loopCfg[k]? := List.getElem?_append_left short
    simp only [cfg, List.getElem?_eq_getElem short, Option.bind_some]
    rw [issued_extend short fun c cfg => whole k c cfg index]
    cases s.issued k <;> rfl

/-! ## Entering -/

/-- Entering pops FREPs, and nothing behind the first other instruction. -/
theorem enter_insns {l m a : List Insn} {s t : Sequencer} (goes : enter (l ++ m) s = some t)
    (queue : s.insns = a ++ (l ++ m)) (place : a.length = s.rdPtr)
    (plain : l.any (fun x => !x.isFrep) = true) :
    t.rdPtr = s.rdPtr ∧ ∃ l', l' ≠ [] ∧ t.insns = a ++ (l' ++ m) := by
  induction l generalizing s with
  | nil => cases plain
  | cons x l ih =>
    rw [List.cons_append, enter] at goes
    cases frep : x.isFrep with
    | false =>
      rw [frep, if_neg Bool.false_ne_true] at goes
      cases goes
      exact ⟨rfl, x :: l, List.cons_ne_nil _ _, queue⟩
    | true =>
      rw [frep, if_pos rfl] at goes
      split at goes
      · rw [List.any_cons, frep, Bool.not_true, Bool.false_or] at plain
        apply ih goes _ place plain
        show s.insns.eraseIdx s.rdPtr = _
        rw [queue, List.cons_append, eraseIdx_mid place]
      · cases goes

theorem enter_loops {l : List Insn} {s t : Sequencer} (goes : enter l s = some t) :
    succIdx s.loopIdx ≤ succIdx t.loopIdx ∧ t.loopCfg.length = s.loopCfg.length := by
  induction l generalizing s with
  | nil =>
    rw [enter] at goes
    split at goes
    · cases goes
      exact ⟨Nat.le_refl _, rfl⟩
    · cases goes
  | cons x l ih =>
    rw [enter] at goes
    split at goes
    · split at goes
      · obtain ⟨le, size⟩ := ih goes
        rw [List.length_modify] at size
        exact ⟨Nat.le_of_succ_le le, size⟩
      · cases goes
    · cases goes
      exact ⟨Nat.le_refl _, rfl⟩

/-- **Entering does not look beyond the first instruction other than an FREP.** -/
theorem enter_extend {l a : List Insn} {s t : Sequencer}
    (goes : enter (l ++ es.map Entry.insn) (s.extend es) = some t) (queue : s.insns = a ++ l)
    (place : a.length = s.rdPtr) (plain : l.any (fun x => !x.isFrep) = true)
    (room : succIdx t.loopIdx + (es.flatMap Entry.cfgs).length ≤ t.loopCfg.length) :
    ∃ t', enter l s = some t' ∧ t'.extend es = t := by
  induction l generalizing s with
  | nil => cases plain
  | cons x l ih =>
    rw [List.cons_append, enter] at goes
    rw [enter]
    cases frep : x.isFrep with
    | false =>
      rw [frep, if_neg Bool.false_ne_true] at goes
      cases goes
      exact ⟨s, rfl, rfl⟩
    | true =>
      rw [frep, if_pos rfl] at goes
      split at goes
      · next inside =>
          obtain ⟨le, size⟩ := enter_loops goes
          have le : succIdx s.loopIdx + 1 ≤ succIdx t.loopIdx := le
          rw [List.length_modify] at size
          have size : t.loopCfg.length = s.loopCfg.length + (es.flatMap Entry.cfgs).length := by
            rw [size, extend, List.length_append]
          have short : succIdx s.loopIdx < s.loopCfg.length := by omega
          rw [if_pos rfl, if_pos short]
          rw [List.any_cons, frep, Bool.not_true, Bool.false_or] at plain
          refine ih ?_ ?_ place plain
          · rw [← goes]
            have erased : (s.extend es).insns.eraseIdx (s.extend es).rdPtr =
                s.insns.eraseIdx s.rdPtr ++ es.map Entry.insn := by
              apply List.eraseIdx_append_of_lt_length
              show s.rdPtr < s.insns.length
              rw [queue, List.length_append, List.length_cons]
              omega
            have based : (s.extend es).loopCfg.modify (succIdx (s.extend es).loopIdx)
                (fun c => { c with basePtr := (s.extend es).rdPtr }) =
                  s.loopCfg.modify (succIdx s.loopIdx) (fun c => { c with basePtr := s.rdPtr }) ++
                    es.flatMap Entry.cfgs := modify_append short _
            simp only [erased, based]
            rfl
          · show s.insns.eraseIdx s.rdPtr = _
            rw [queue, eraseIdx_mid place]
      · cases goes

end Extend

/-- The next instruction to be issued was pushed. -/
def available (s : Sequencer) : Bool := (s.insns.drop s.rdPtr).any fun x => !x.isFrep

end Sequencer

/-! ## The loops of a nest that were pushed -/

/-- The number of loops. -/
def freps (xs : List Insn) : Nat := xs.countP Insn.isFrep

@[simp] theorem freps_append (xs ys : List Insn) : freps (xs ++ ys) = freps xs + freps ys :=
  List.countP_append

@[simp] theorem freps_plain (ls : List Line) : freps (plain ls) = 0 := by
  induction ls with
  | nil => rfl
  | cons l ls ih => exact ih

theorem length_cfgs (es : List Entry) :
    (es.flatMap Entry.cfgs).length = freps (es.map Entry.insn) := by
  induction es with
  | nil => rfl
  | cons e es ih =>
    rw [List.flatMap_cons, List.length_append, ih, List.map_cons, freps, freps, List.countP_cons]
    cases e <;> simp [Entry.cfgs, Entry.insn, Line.insn, Nat.add_comm]

theorem freps_code (N : Nest) : freps (N.code.map Entry.insn) = N.depth := by
  rw [← length_cfgs, code_cfgs 0, length_idle]

theorem freps_inside (entered : Bool) (N : Nest) :
    freps (insideInsns entered N) = if entered then 0 else N.depth - 1 := by
  cases N with
  | flat frep first rest =>
    rw [insideInsns, freps_plain]
    cases entered <;> rfl
  | around frep before inner after =>
    cases entered with
    | false => simp [insideInsns, freps_code, Nest.depth]
    | true => simp [insideInsns]

/-- The instructions of a body are among those of its queue. -/
theorem size_le_inside (entered : Bool) (N : Nest) : N.size ≤ (insideInsns entered N).length := by
  induction N generalizing entered with
  | flat frep first rest => simp [insideInsns, plain, Nest.size]
  | around frep before inner after ih =>
    cases entered with
    | true => simp [insideInsns_entered, plain, Nest.size]
    | false =>
      have deeper := ih false
      rw [Nest.size] at deeper
      rw [insideInsns, if_neg Bool.false_ne_true, code_insns, Nest.size, Nest.body]
      simp only [List.length_append, List.length_cons, plain, List.length_map]
      omega

theorem length_insideCfgs (entered : Bool) (base : Nat) (N : Nest) :
    (insideCfgs entered base N).length = N.depth - 1 := by
  cases N with
  | flat frep first rest => rfl
  | around frep before inner after => exact length_idle ..

section Partial

variable {later es : List Entry} {p : Spot} {s t : Sequencer}

/-- The loops that are not pushed are none of those that were entered. -/
theorem loops_room {pushed : List Insn} (queue : (conf later p).insns = pushed ++ es.map Entry.insn) :
    p.ctx.length + 1 + (es.flatMap Entry.cfgs).length ≤ (conf later p).loopCfg.length := by
  have count := congrArg freps queue
  simp only [conf, freps_append, freps_plain, freps_inside] at count
  simp only [conf, List.length_append, length_ctxCfgs, List.length_cons, length_insideCfgs,
    length_cfgs]
  split at count <;> omega

omit p s t in
/-- The outermost loop comes first. -/
theorem head_ctxCfgs (ctx : List Frame) (N : Nest) (off : Nat) (last : Bool) (iter inst base : Nat)
    (rest : List LoopCfg) :
    (ctxCfgs ctx N off last ++ N.cfg iter inst base :: rest)[0]?.bind LoopCfg.frep =
      some (outermost ctx N).config := by
  induction ctx generalizing N off last iter inst base rest with
  | nil => rfl
  | cons f ctx ih =>
    simp only [ctxCfgs, List.append_assoc, List.cons_append, List.nil_append]
    exact ih ..

omit p s t in
/-- A nest that is finished ends with all the loops around it. -/
theorem after_of_popped {ctx : List Frame} {N : Nest} (finished : popped ctx N = none) :
    ctxAfter ctx = [] := by
  induction ctx generalizing N with
  | nil => rfl
  | cons f ctx ih =>
    rw [popped] at finished
    split at finished
    · next ends => rw [ctxAfter, ends.2, ih finished, List.append_nil]
    · cases finished

omit s in
/-- At its last issue all of the nest was pushed. -/
theorem whole_of_popped (valid : p.Valid) (same : t.extend es = conf later p)
    (here : t.rdPtr < t.insns.length) (last : p.off + 1 = p.nest.size)
    (finished : popped p.ctx p.nest = none) : t.Whole := by
  have queue : t.insns ++ es.map Entry.insn = (conf later p).insns := by rw [← same]; rfl
  have loops : t.loopCfg ++ es.flatMap Entry.cfgs = (conf later p).loopCfg := by rw [← same]; rfl
  have room := loops_room queue.symm
  rw [← loops, List.length_append] at room
  have some : 0 < t.loopCfg.length := by omega
  constructor
  · exact some
  · have depth : t.nestDepth = (conf later p).nestDepth := by rw [← same]; rfl
    have size := congrArg List.length loops
    have count := congrArg freps queue
    rw [conf_last valid last] at depth size count
    rw [depth_conf rfl, depth_outermost] at depth
    rw [insns_conf (p := { p with entered := true }) rfl, freps_append, freps_append,
      freps_plain] at count
    simp only [conf, List.length_append, length_ctxCfgs, List.length_cons, length_insideCfgs,
      length_cfgs] at size
    simp only at depth
    omega
  · intro f frep
    have first : t.loopCfg[0]? = (conf later p).loopCfg[0]? := by
      rw [← loops, List.getElem?_append_left some]
    have rd : t.rdPtr = (ctxBefore p.ctx).length + p.off := by
      have moved : t.rdPtr = (conf later p).rdPtr := by rw [← same]; rfl
      exact moved
    have size : (outermost p.ctx p.nest).size = (ctxBefore p.ctx).length + p.nest.size := by
      rw [Nest.size, body_outermost, after_of_popped finished, List.append_nil, List.length_append,
        Nest.size]
    rw [first, conf, head_ctxCfgs] at frep
    cases frep
    show (outermost p.ctx p.nest).size - 1 < _
    omega

/-- **`emulate` does not look beyond the instruction it issues.** -/
theorem emulate_extend (valid : p.Valid) (arrives : (s.extend es).entering = some (conf later p))
    (ready : s.available = true) :
    (s.extend es).emulate = s.emulate.map fun r => (r.1, r.2.extend es) := by
  have short : s.rdPtr < s.insns.length := by
    rcases Nat.lt_or_ge s.rdPtr s.insns.length with short | beyond
    · exact short
    · rw [Sequencer.available, List.drop_eq_nil_of_le beyond] at ready
      cases ready
  have split : s.insns = s.insns.take s.rdPtr ++ s.insns.drop s.rdPtr :=
    (List.take_append_drop ..).symm
  have place : (s.insns.take s.rdPtr).length = s.rdPtr := List.length_take_of_le (by omega)
  have rest : (s.extend es).insns.drop (s.extend es).rdPtr =
      s.insns.drop s.rdPtr ++ es.map Entry.insn :=
    List.drop_append_of_le_length (Nat.le_of_lt short)
  have queue : (s.extend es).insns = s.insns.take s.rdPtr ++
      (s.insns.drop s.rdPtr ++ es.map Entry.insn) := by
    rw [← List.append_assoc, ← split]
    rfl
  have enters := arrives
  rw [Sequencer.entering, rest] at enters
  obtain ⟨rd, pushed, more, insns⟩ := Sequencer.enter_insns enters queue place ready
  rw [← List.append_assoc] at insns
  have room := loops_room insns
  obtain ⟨t, goes, same⟩ := Sequencer.enter_extend enters split place ready room
  have cfg : t.loopCfg ++ es.flatMap Entry.cfgs = (conf later p).loopCfg := by rw [← same]; rfl
  have index : t.loopIdx = some p.ctx.length := by
    have kept : t.loopIdx = (conf later p).loopIdx := by rw [← same]; rfl
    exact kept
  have loops : p.ctx.length < t.loopCfg.length := by
    rw [← cfg, List.length_append] at room
    omega
  have here : t.rdPtr < t.insns.length := by
    have kept : t.rdPtr = s.rdPtr := by
      rw [← same] at rd
      exact rd
    have whole : t.insns = s.insns.take s.rdPtr ++ pushed := by
      rw [← same] at insns
      exact List.append_cancel_right insns
    have some := List.length_pos_iff.mpr more
    rw [kept, whole, List.length_append, place]
    omega
  have issues : (t.extend es).issue = t.issue.map fun r => (r.1, r.2.extend es) := by
    apply Sequencer.issue_extend here
    · intro k active
      rw [index] at active
      cases active
      exact loops
    · intro k c left active there inst iter goes
      rw [index] at active
      cases active
      have there : (conf later p).loopCfg[p.ctx.length]? = some c := by
        rw [← cfg, List.getElem?_append_left loops, there]
      have found : (conf later p).loopCfg[p.ctx.length]? =
          some (p.nest.cfg p.iter p.off (ctxBefore p.ctx).length) := getElem?_mid (length_ctxCfgs ..)
      rw [found] at there
      cases there
      rw [lastInst_cfg, Option.some.injEq, beq_iff_eq] at inst
      rw [lastIter_cfg, Option.some.injEq, beq_iff_eq] at iter
      have last : p.off + 1 = p.nest.size := by
        have below := valid.off
        omega
      have size : p.ctx.length ≤ (t.loopCfg.modify p.ctx.length LoopCfg.reset).length := by
        rw [List.length_modify]
        omega
      have unwinds : Sequencer.unwind p.ctx.length
          (t.loopCfg.modify p.ctx.length LoopCfg.reset ++ es.flatMap Entry.cfgs) = _ :=
        Sequencer.unwind_append size
      have finished : popped p.ctx p.nest = none := by
        rw [← modify_append loops, cfg, conf_last valid last, goes,
          reset_conf (p := { p with entered := true }) rfl last iter, unwind_ctx] at unwinds
        cases pops : popped p.ctx p.nest with
        | none => rfl
        | some q =>
          simp only [pops] at unwinds
          cases unwinds
      exact whole_of_popped valid same here last finished
  rw [Sequencer.emulate, Sequencer.emulate, arrives, Sequencer.entering, goes, ← same]
  exact issues

end Partial

/-! ## Nothing comes back -/

namespace Sequencer

/-- Entering pops instructions and adds none. -/
theorem enter_shrinks {l : List Insn} {s t : Sequencer} (goes : enter l s = some t)
    (queue : s.insns.drop s.rdPtr = l) : t.rdPtr = s.rdPtr ∧
      (t = s ∨ t.insns.length < s.insns.length) := by
  induction l generalizing s with
  | nil =>
    rw [enter] at goes
    split at goes
    · cases goes
      exact ⟨rfl, .inl rfl⟩
    · cases goes
  | cons x l ih =>
    rw [enter] at goes
    split at goes
    · split at goes
      · have short : s.rdPtr < s.insns.length := by
          have some := congrArg List.length queue
          rw [List.length_drop, List.length_cons] at some
          omega
        have rest : (s.insns.eraseIdx s.rdPtr).drop s.rdPtr = l := by
          have place : (s.insns.take s.rdPtr).length = s.rdPtr :=
            List.length_take_of_le (Nat.le_of_lt short)
          have split : s.insns = s.insns.take s.rdPtr ++ x :: l := by
            rw [← queue, List.take_append_drop]
          rw [split, eraseIdx_mid place, List.drop_left' place]
        have size := List.length_eraseIdx_of_lt short
        obtain ⟨rd, shrinks⟩ := ih goes rest
        refine ⟨rd, .inr ?_⟩
        rcases shrinks with rfl | less
        · show (s.insns.eraseIdx s.rdPtr).length < _
          omega
        · have less : t.insns.length < (s.insns.eraseIdx s.rdPtr).length := less
          omega
      · cases goes
    · cases goes
      exact ⟨rfl, .inl rfl⟩

/-- FREPs alone at the read pointer are all popped. -/
theorem enter_freps {l m a : List Insn} {s t : Sequencer} (goes : enter (l ++ m) s = some t)
    (queue : s.insns = a ++ (l ++ m)) (place : a.length = s.rdPtr)
    (freps : ∀ x ∈ l, x.isFrep = true) :
    t.rdPtr = s.rdPtr ∧ t.insns.length ≤ s.rdPtr + m.length := by
  induction l generalizing s with
  | nil =>
    have rest : s.insns.drop s.rdPtr = m := by
      rw [queue, List.drop_left' place]
      rfl
    have size := congrArg List.length queue
    rw [List.length_append, List.nil_append] at size
    obtain ⟨rd, rfl | less⟩ := enter_shrinks goes rest
    · exact ⟨rd, by omega⟩
    · exact ⟨rd, by omega⟩
  | cons x l ih =>
    rw [List.cons_append, enter, if_pos (freps x List.mem_cons_self)] at goes
    split at goes
    · apply ih goes _ place fun y mem => freps y (List.mem_cons_of_mem x mem)
      show s.insns.eraseIdx s.rdPtr = _
      rw [queue, List.cons_append, eraseIdx_mid place]
    · cases goes

section

variable {s t : Sequencer}

theorem advance_insns {k : Nat} (goes : s.advance k = some t) : t.insns = s.insns := by
  obtain ⟨cfg, -, goes⟩ := Option.bind_eq_some_iff.mp goes
  cases goes
  rfl

theorem restart_insns {k : Nat} (goes : s.restart k = some t) : t.insns = s.insns := by
  obtain ⟨c, -, goes⟩ := Option.bind_eq_some_iff.mp goes
  cases goes
  rfl

theorem leave_insns {k : Nat} (goes : s.leave k = some t) : t.insns.length ≤ s.insns.length := by
  obtain ⟨⟨j, cfg⟩, -, goes⟩ := Option.bind_eq_some_iff.mp goes
  cases j with
  | none =>
    obtain ⟨c, -, goes⟩ := Option.bind_eq_some_iff.mp goes
    obtain ⟨f, -, goes⟩ := Option.bind_eq_some_iff.mp goes
    cases goes
    simp only [List.length_drop]
    omega
  | some j =>
    obtain ⟨c, -, goes⟩ := Option.bind_eq_some_iff.mp goes
    obtain ⟨inst, -, goes⟩ := Option.bind_eq_some_iff.mp goes
    split at goes
    · have same := advance_insns goes
      exact Nat.le_of_eq (congrArg List.length same)
    · have same := restart_insns goes
      exact Nat.le_of_eq (congrArg List.length same)

theorem issued_insns {k : Nat} (goes : s.issued k = some t) : t.insns.length ≤ s.insns.length := by
  obtain ⟨c, -, goes⟩ := Option.bind_eq_some_iff.mp goes
  obtain ⟨inst, -, goes⟩ := Option.bind_eq_some_iff.mp goes
  split at goes
  · obtain ⟨s', advances, rfl⟩ := Option.map_eq_some_iff.mp goes
    have same := advance_insns advances
    exact Nat.le_of_eq (congrArg List.length same)
  · obtain ⟨c, -, goes⟩ := Option.bind_eq_some_iff.mp goes
    obtain ⟨iter, -, goes⟩ := Option.bind_eq_some_iff.mp goes
    split at goes
    · exact Nat.le_of_eq (congrArg List.length (restart_insns goes))
    · exact leave_insns goes

/-- An issue adds no instruction, and outside of loops it takes one. -/
theorem issue_insns {i : Issue} (goes : s.issue = some (i, t)) :
    t.insns.length ≤ s.insns.length ∧ (s.loopIdx = none → t.insns.length < s.insns.length) := by
  obtain ⟨x, here, goes⟩ := Option.bind_eq_some_iff.mp goes
  cases index : s.loopIdx with
  | none =>
    rw [index] at goes
    cases goes
    have short := (List.getElem?_eq_some_iff.mp here).1
    have size := List.length_eraseIdx_of_lt short
    exact ⟨by simp only; omega, fun _ => by simp only; omega⟩
  | some k =>
    rw [index] at goes
    obtain ⟨c, -, goes⟩ := Option.bind_eq_some_iff.mp goes
    obtain ⟨after, moves, goes⟩ := Option.bind_eq_some_iff.mp goes
    cases goes
    exact ⟨issued_insns moves, fun none => by cases none⟩

theorem emulate_insns {i : Issue} (goes : s.emulate = some (i, t)) :
    t.insns.length ≤ s.insns.length ∧ (s.loopIdx = none → t.insns.length < s.insns.length) := by
  obtain ⟨r, enters, issues⟩ := Option.bind_eq_some_iff.mp goes
  obtain ⟨less, strict⟩ := issue_insns issues
  obtain ⟨-, rfl | shrinks⟩ := enter_shrinks enters rfl
  · exact ⟨less, strict⟩
  · exact ⟨by omega, fun _ => by omega⟩

end

end Sequencer

/-! ## Calls in any order -/

/-- The two calls: the next entry of the program is pushed, and an FREP decoded, or an
instruction is issued. -/
inductive Call where
  | push
  | emulate
  deriving DecidableEq, Repr

/-- What a sequence of calls issues, what is still to be pushed, and the sequencer. -/
def exec : List Call → List Entry → Sequencer → Option (List Issue × List Entry × Sequencer)
  | [], es, s => some ([], es, s)
  | .push :: _, [], _ => none
  | .push :: calls, e :: es, s => do
    let s ← s.push e
    exec calls es s
  | .emulate :: calls, es, s => do
    let (i, s) ← s.emulate
    let (issues, es, s) ← exec calls es s
    some (i :: issues, es, s)

/-- The program is pushed in its order, and `emulate` is called when its next instruction
is available. -/
def Ordered : List Call → List Entry → Sequencer → Prop
  | [], _, _ => True
  | .push :: _, [], _ => False
  | .push :: calls, e :: es, s => (s.push e).elim True (Ordered calls es)
  | .emulate :: calls, es, s =>
    s.available = true ∧ s.emulate.elim True fun r => Ordered calls es r.2

instance decidableOrdered : (calls : List Call) → (es : List Entry) → (s : Sequencer) →
    Decidable (Ordered calls es s)
  | [], _, _ => .isTrue trivial
  | .push :: _, [], _ => .isFalse id
  | .push :: calls, e :: es, s =>
    show Decidable ((s.push e).elim True (Ordered calls es)) from
      match s.push e with
      | none => .isTrue trivial
      | some s => decidableOrdered calls es s
  | .emulate :: calls, es, s =>
    have : Decidable (s.emulate.elim True fun r => Ordered calls es r.2) :=
      match s.emulate with
      | none => .isTrue trivial
      | some r => decidableOrdered calls es r.2
    inferInstanceAs (Decidable (_ ∧ _))

section Calls

variable {later : List Entry}

@[simp] theorem pushes_push (calls : List Call) :
    (Call.push :: calls).count .push = calls.count .push + 1 := List.count_cons_self

@[simp] theorem emulates_push (calls : List Call) :
    (Call.push :: calls).count .emulate = calls.count .emulate := List.count_cons_of_ne (by decide)

@[simp] theorem pushes_emulate (calls : List Call) :
    (Call.emulate :: calls).count .push = calls.count .push := List.count_cons_of_ne (by decide)

@[simp] theorem emulates_emulate (calls : List Call) :
    (Call.emulate :: calls).count .emulate = calls.count .emulate + 1 := List.count_cons_self

theorem ordered_push {calls : List Call} {e : Entry} {es : List Entry} {s : Sequencer}
    (ordered : Ordered (.push :: calls) (e :: es) s) : Ordered calls es (s.extend [e]) := by
  rw [Ordered, Sequencer.push_eq] at ordered
  exact ordered

theorem ordered_emulate {calls : List Call} {es : List Entry} {s s' : Sequencer} {i : Issue}
    (ordered : Ordered (.emulate :: calls) es s) (goes : s.emulate = some (i, s')) :
    Ordered calls es s' := by
  rw [Ordered, goes] at ordered
  exact ordered.2

theorem exec_push (calls : List Call) (e : Entry) (es : List Entry) (s : Sequencer) :
    exec (.push :: calls) (e :: es) s = exec calls es (s.extend [e]) := by
  rw [exec, Sequencer.push_eq]
  rfl

/-- **In any order of the calls** what is issued is the first of what the sequencer stands
to issue. -/
theorem exec_stands {calls : List Call} {es : List Entry} {s : Sequencer} {left : List Line}
    (stands : Stands later left (s.extend es)) (ordered : Ordered calls es s)
    (few : calls.count .emulate ≤ left.length) :
    ∃ issues s', exec calls es s = some (issues, es.drop (calls.count .push), s') ∧
      issues.map Issue.pc = (left.take (calls.count .emulate)).map Line.pc ∧
      Stands later (left.drop (calls.count .emulate)) (s'.extend (es.drop (calls.count .push))) := by
  induction calls generalizing es s left with
  | nil => exact ⟨[], s, rfl, rfl, stands⟩
  | cons call calls ih =>
    cases call with
    | push =>
      cases es with
      | nil => cases ordered
      | cons e es =>
        rw [exec_push]
        have stands' : Stands later left ((s.extend [e]).extend es) := by
          rw [Sequencer.extend_extend]
          exact stands
        rw [emulates_push] at few
        rw [pushes_push, emulates_push]
        exact ih stands' (ordered_push ordered) few
    | emulate =>
      have ready : s.available = true := ordered.1
      rw [emulates_emulate] at few
      rw [emulates_emulate, pushes_emulate]
      cases left with
      | nil => cases few
      | cons x left =>
        obtain ⟨status, s', issues, after⟩ := stands_step stands
        rcases stands with ⟨p, valid, arrives, -⟩ | ⟨none, -⟩
        · rw [emulate_extend valid arrives ready] at issues
          obtain ⟨⟨i, s''⟩, goes, same⟩ := Option.map_eq_some_iff.mp issues
          cases same
          obtain ⟨more, t, runs, pcs, stands⟩ :=
            ih after (ordered_emulate ordered goes) (Nat.le_of_succ_le_succ few)
          refine ⟨⟨x.pc, x.sec, status⟩ :: more, t, ?_, ?_, stands⟩
          · rw [exec, goes]
            simp only [Option.bind_eq_bind, Option.bind_some, runs]
          · rw [List.map_cons, pcs]
            rfl
        · cases none

/-- Every call of `emulate` issues one instruction, and none brings instructions back. -/
theorem exec_counts {calls : List Call} {es es' : List Entry} {s s' : Sequencer}
    {issues : List Issue} (runs : exec calls es s = some (issues, es', s')) :
    issues.length = calls.count .emulate ∧
      (s'.extend es').insns.length ≤ (s.extend es).insns.length := by
  induction calls generalizing es s issues with
  | nil =>
    cases runs
    exact ⟨rfl, Nat.le_refl _⟩
  | cons call calls ih =>
    cases call with
    | push =>
      cases es with
      | nil => cases runs
      | cons e es =>
        rw [exec_push] at runs
        obtain ⟨size, less⟩ := ih runs
        rw [Sequencer.extend_extend] at less
        rw [emulates_push]
        exact ⟨size, less⟩
    | emulate =>
      obtain ⟨⟨i, t⟩, goes, tail⟩ := Option.bind_eq_some_iff.mp runs
      obtain ⟨⟨more, es'', s''⟩, rest, done⟩ := Option.bind_eq_some_iff.mp tail
      cases done
      obtain ⟨size, less⟩ := ih rest
      have shrinks := (Sequencer.emulate_insns goes).1
      simp only [Sequencer.extend, List.length_append, List.length_map] at less ⊢
      rw [List.length_cons, size, emulates_emulate]
      exact ⟨rfl, by omega⟩

/-- A call of `emulate` too many takes an instruction from what follows the nest. -/
theorem exec_lost {calls : List Call} {es es' : List Entry} {s s' : Sequencer} {left : List Line}
    {issues : List Issue} (stands : Stands later left (s.extend es)) (ordered : Ordered calls es s)
    (many : left.length < calls.count .emulate)
    (runs : exec calls es s = some (issues, es', s')) :
    (s'.extend es').insns.length < later.length := by
  induction calls generalizing es s left issues with
  | nil => cases many
  | cons call calls ih =>
    cases call with
    | push =>
      cases es with
      | nil => cases ordered
      | cons e es =>
        rw [exec_push] at runs
        have stands' : Stands later left ((s.extend [e]).extend es) := by
          rw [Sequencer.extend_extend]
          exact stands
        rw [emulates_push] at many
        exact ih stands' (ordered_push ordered) many runs
    | emulate =>
      have ready : s.available = true := ordered.1
      obtain ⟨⟨i, t⟩, goes, tail⟩ := Option.bind_eq_some_iff.mp runs
      obtain ⟨⟨more, es'', s''⟩, rest, done⟩ := Option.bind_eq_some_iff.mp tail
      cases done
      rw [emulates_emulate] at many
      cases left with
      | nil =>
        have same := stands_nil stands
        have outside : s.loopIdx = none := by
          have kept : s.loopIdx = (queued later).loopIdx := by rw [← same]; rfl
          exact kept
        have size := congrArg (fun s => s.insns.length) same
        have shrinks := (Sequencer.emulate_insns goes).2 outside
        have less := (exec_counts rest).2
        simp only [queued, Sequencer.extend, List.length_append, List.length_map,
          List.length_nil, Nat.zero_add] at size less ⊢
        omega
      | cons x left =>
        obtain ⟨status, s₁, steps, after⟩ := stands_step stands
        rcases stands with ⟨p, valid, arrives, -⟩ | ⟨none, -⟩
        · rw [emulate_extend valid arrives ready, goes] at steps
          cases steps
          exact ih after (ordered_emulate ordered goes) (Nat.lt_of_succ_lt_succ many) rest
        · cases none

theorem extend_inj {s t : Sequencer} {es : List Entry} (same : s.extend es = t.extend es) : s = t := by
  obtain ⟨loopIdx, loopCfg, nestDepth, insns, currSec, rdPtr⟩ := s
  obtain ⟨loopIdx', loopCfg', nestDepth', insns', currSec', rdPtr'⟩ := t
  simp only [Sequencer.extend, Sequencer.mk.injEq, List.append_cancel_right_eq] at same
  simp only [Sequencer.mk.injEq]
  exact same

/-- As long as something of a nest is left, and all of it was pushed, an instruction is
available. -/
theorem available_of_left {s : Sequencer} {es : List Entry} {x : Line} {left : List Line}
    (stands : Stands later (x :: left) (s.extend es)) (pushed : es.length ≤ later.length) :
    s.available = true := by
  rcases stands with ⟨p, valid, arrives, -⟩ | ⟨none, -⟩
  · -- were it not, entering would leave less than the nest and what follows it
    have inside := size_le_inside p.entered p.nest
    have below := valid.off
    have long : (conf later p).rdPtr + later.length < (conf later p).insns.length := by
      simp only [conf, List.length_append, plain, List.length_map]
      omega
    cases ready : s.available with
    | true => rfl
    | false =>
      have freps : ∀ y ∈ s.insns.drop s.rdPtr, y.isFrep = true := by
        intro y mem
        rw [Sequencer.available, List.any_eq_false] at ready
        simpa using ready y mem
      rcases Nat.le_total s.rdPtr s.insns.length with short | beyond
      · have place : (s.insns.take s.rdPtr).length = s.rdPtr := List.length_take_of_le short
        have rest : (s.extend es).insns.drop (s.extend es).rdPtr =
            s.insns.drop s.rdPtr ++ es.map Entry.insn := List.drop_append_of_le_length short
        have queue : (s.extend es).insns = s.insns.take s.rdPtr ++
            (s.insns.drop s.rdPtr ++ es.map Entry.insn) := by
          rw [← List.append_assoc, List.take_append_drop]
          rfl
        rw [Sequencer.entering, rest] at arrives
        obtain ⟨rd, size⟩ := Sequencer.enter_freps arrives queue place freps
        have rd : (conf later p).rdPtr = s.rdPtr := rd
        rw [List.length_map] at size
        omega
      · obtain ⟨rd, shrinks⟩ := Sequencer.enter_shrinks arrives rfl
        have rd : (conf later p).rdPtr = s.rdPtr := rd
        have size : (s.extend es).insns.length = s.insns.length + es.length := by
          rw [Sequencer.extend, List.length_append, List.length_map]
        rcases shrinks with same | less
        · rw [same] at long rd
          omega
        · omega
  · cases none

/-- A sequence of calls gets through a nest: all of it is pushed, and `emulate` is called
for the whole expansion, or until no instruction is available. -/
structure Through (N : Nest) (later : List Entry) (calls : List Call) : Prop where
  ordered : Ordered calls (N.code ++ later) {}
  pushed : N.code.length ≤ calls.count .push
  issues : calls.count .emulate ≤ N.expansion.length
  settled : calls.count .emulate = N.expansion.length ∨
    ∀ r, exec calls (N.code ++ later) {} = some r → r.2.2.available = false

/-- No call fails, what is issued is the expansion, and nothing of the nest is left: the
sequencer holds the entries pushed after it and nothing else. -/
def Expands (N : Nest) (later : List Entry) (calls : List Call) : Prop :=
  ∃ issues es s, exec calls (N.code ++ later) {} = some (issues, es, s) ∧
    issues.map Issue.pc = N.expansion.map Line.pc ∧
    ∃ pushed, later = pushed ++ es ∧ s = queued pushed

/-- **The model issues the expansion of a nest**, in any order of the calls, exactly when no
loop that is iterated starts with an inner one that has something to iterate. -/
theorem issues_iff {N : Nest} {calls : List Call} (through : Through N later calls) :
    Expands N later calls ↔ N.Reentered := by
  obtain ⟨ordered, pushed, few, settled⟩ := through
  have start : Stands later N.emitted (Sequencer.extend {} (N.code ++ later)) := stands_start N
  constructor
  · rintro ⟨issues, es, s, runs, same, pushed, rfl, rfl⟩
    have size := congrArg List.length same
    rw [List.length_map, List.length_map, (exec_counts runs).1] at size
    obtain ⟨le, reentered⟩ := N.emitted_le
    apply reentered
    by_cases short : N.emitted.length < N.expansion.length
    · have lost := exec_lost start ordered (by omega) runs
      rw [queued, Sequencer.extend_extend] at lost
      simp only [Sequencer.extend, List.length_append, List.length_map, List.length_nil] at lost
      omega
    · omega
  · intro reentered
    rw [Nest.emitted_of_reentered reentered] at start
    obtain ⟨issues, s, runs, pcs, stands⟩ := exec_stands start ordered few
    have rest : (N.code ++ later).drop (calls.count .push) =
        later.drop (calls.count .push - N.code.length) := by
      rw [List.drop_append, List.drop_eq_nil_of_le pushed, List.nil_append]
    rw [rest] at runs stands
    have all : calls.count .emulate = N.expansion.length := by
      rcases settled with all | stuck
      · exact all
      · have idle : s.available = false := stuck _ runs
        cases more : N.expansion.drop (calls.count .emulate) with
        | nil =>
          rw [List.drop_eq_nil_iff] at more
          omega
        | cons x left =>
          rw [more] at stands
          have ready := available_of_left stands (by rw [List.length_drop]; omega)
          rw [ready] at idle
          cases idle
    refine ⟨issues, _, s, runs, ?_, later.take (calls.count .push - N.code.length),
      (List.take_append_drop ..).symm, ?_⟩
    · rw [pcs, all, List.take_length]
    · rw [all, List.drop_length] at stands
      have done := stands_nil stands
      refine @extend_inj s _ (later.drop (calls.count .push - N.code.length)) ?_
      rw [done, queued, queued, Sequencer.extend_extend, List.take_append_drop]

end Calls

/-! ## Two nests -/

def frepOf (maxIter : Nat) (pc : String) : FrepLine :=
  { pc, sec := 0, maxIter, stgMax := 0, stgMask := 0 }

/-- An instruction, an inner loop of one instruction, and an instruction; each loop twice. -/
def loopAfterFirst : Nest :=
  .around (frepOf 1 "80000100") [⟨"80000104", 0⟩]
    (.flat (frepOf 1 "80000108") ⟨"8000010c", 0⟩ []) [⟨"80000110", 0⟩]

/-- The first instruction is issued before the inner loop is pushed. -/
theorem issues_iff_interleaved :
    Expands loopAfterFirst [] ([.push, .push, .emulate, .push, .push, .push] ++
      List.replicate 7 .emulate) ∧ loopAfterFirst.Reentered := by
  have through : Through loopAfterFirst [] ([.push, .push, .emulate, .push, .push, .push] ++
      List.replicate 7 .emulate) :=
    ⟨by decide, by decide, by decide, .inl (by decide)⟩
  have reentered : loopAfterFirst.Reentered := by decide
  exact ⟨(issues_iff through).mpr reentered, reentered⟩

/-- Two loops of the same single instruction; each twice. -/
def startsInside : Nest :=
  .around (frepOf 1 "80000100") [] (.flat (frepOf 1 "80000104") ⟨"80000108", 0⟩ []) []

/-- All of it is pushed, and `emulate` called until no instruction is left. -/
def threeCalls : List Call := [.push, .push, .push, .emulate, .emulate, .emulate]

/-- In its second iteration the outer loop goes past the inner one, and is finished. -/
theorem exec_startsInside : exec threeCalls (startsInside.code ++ []) {} =
    some ([⟨"80000108", 0, some ⟨"80000104", 0, 0⟩⟩, ⟨"80000108", 0, some ⟨"80000104", 1, 0⟩⟩,
      ⟨"80000108", 0, some ⟨"80000100", 1, 0⟩⟩], [], {}) := by
  rfl

theorem inner_loop_skipped : Through startsInside [] threeCalls ∧
    startsInside.expansion.length = 4 ∧ ¬Expands startsInside [] threeCalls := by
  refine ⟨⟨by decide, by decide, by decide, .inr ?_⟩, rfl, ?_⟩
  · intro r runs
    rw [exec_startsInside] at runs
    cases runs
    rfl
  · rintro ⟨issues, es, s, runs, same, -⟩
    rw [exec_startsInside] at runs
    cases runs
    exact absurd (congrArg List.length same) (by decide)

end SnitchCluster.Trace
