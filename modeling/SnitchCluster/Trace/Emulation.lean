/-
# Trace.Emulation -- the model of the sequencer walks from spot to spot

`conf` is the state the sequencer is in at a spot of a nest.  The counter of a loop
around the active one follows the read pointer only while every loop in between is in its
last iteration (`ctxCfgs`); the loops inside that were not entered yet still have their
FREPs in the queue.

`emulate_conf` is one issue.  `Stands` then says of a state what the sequencer is going
to issue, once all of the nest is pushed.
-/
import SnitchCluster.Trace.Nest

namespace SnitchCluster.Trace

/-! ## A list with an element in the middle -/

section Middle

variable {α : Type} {l r : List α} {a : α} {n : Nat}

theorem getElem?_mid (here : l.length = n) : (l ++ a :: r)[n]? = some a := by
  subst here
  simp

theorem modify_mid (here : l.length = n) (f : α → α) :
    (l ++ a :: r).modify n f = l ++ f a :: r := by
  subst here
  induction l with
  | nil => rfl
  | cons x l ih => rw [List.cons_append, List.length_cons, List.modify_succ_cons, ih]; rfl

theorem eraseIdx_mid (here : l.length = n) : (l ++ a :: r).eraseIdx n = l ++ r := by
  rw [List.eraseIdx_append_of_length_le (Nat.le_of_eq here), here, Nat.sub_self]
  rfl

end Middle

/-! ## What is pushed -/

def Line.insn (l : Line) : Insn := ⟨l.pc, l.sec, false⟩

/-- An instruction, or an FREP and its configuration. -/
inductive Entry where
  | line (l : Line)
  | frep (l : Line) (f : Frep)

namespace Entry

def insn : Entry → Insn
  | line l => l.insn
  | frep l _ => ⟨l.pc, l.sec, true⟩

def cfgs : Entry → List LoopCfg
  | line _ => []
  | frep l f => [{ pc := l.pc, frep := some f }]

end Entry

/-- A push; an FREP is decoded directly after its push. -/
def Sequencer.push (s : Sequencer) : Entry → Option Sequencer
  | .line l => some (s.pushInsn l.insn)
  | .frep l f => ((s.pushInsn ⟨l.pc, l.sec, true⟩).decodeFrep f).map Prod.snd

/-- The state with more entries at the end of its lists. -/
def Sequencer.extend (s : Sequencer) (es : List Entry) : Sequencer :=
  { s with insns := s.insns ++ es.map Entry.insn, loopCfg := s.loopCfg ++ es.flatMap Entry.cfgs }

/-- Nothing but these entries was pushed. -/
def queued (es : List Entry) : Sequencer := Sequencer.extend {} es

theorem Sequencer.push_eq (s : Sequencer) (e : Entry) : s.push e = some (s.extend [e]) := by
  cases e with
  | line l =>
    rw [push, pushInsn, extend]
    simp [Entry.insn, Entry.cfgs, Line.insn]
  | frep l f =>
    rw [push, decodeFrep, pushInsn, extend]
    simp [Entry.insn, Entry.cfgs]

theorem Sequencer.extend_extend (s : Sequencer) (es fs : List Entry) :
    (s.extend es).extend fs = s.extend (es ++ fs) := by
  simp [extend]

namespace Nest

/-- The configuration of the outermost loop. -/
def config (N : Nest) : Frep := ⟨N.frep.maxIter, N.size - 1, N.frep.stgMax, N.frep.stgMask⟩

/-- The instructions of the nest as they are pushed. -/
def code : Nest → List Entry
  | flat frep first rest =>
    .frep frep.toLine (flat frep first rest).config :: (first :: rest).map Entry.line
  | around frep before inner after =>
    .frep frep.toLine (around frep before inner after).config ::
      (before.map Entry.line ++ inner.code ++ after.map Entry.line)

def cfg (N : Nest) (iter inst base : Nat) : LoopCfg := ⟨N.frep.pc, iter, inst, base, some N.config⟩

end Nest

/-! ## The state at a spot -/

def plain (ls : List Line) : List Insn := ls.map Line.insn

/-- The queue of a loop that was entered. -/
def insideInsns (entered : Bool) (N : Nest) : List Insn :=
  match N with
  | .flat _ _ _ => plain N.body
  | .around _ before inner after =>
    if entered then plain N.body else plain before ++ inner.code.map Entry.insn ++ plain after

/-- The loops of a nest in no iteration; the base pointer is set when a loop is entered. -/
def idle (entered : Bool) : Nat → Nest → List LoopCfg
  | base, .flat frep first rest => [(Nest.flat frep first rest).cfg 0 0 (if entered then base else 0)]
  | base, .around frep before inner after =>
    (Nest.around frep before inner after).cfg 0 0 (if entered then base else 0) ::
      idle entered (base + before.length) inner

/-- The loops inside a loop. -/
def insideCfgs (entered : Bool) (base : Nat) : Nest → List LoopCfg
  | .flat _ _ _ => []
  | .around _ before inner _ => idle entered (base + before.length) inner

def ctxBefore : List Frame → List Line
  | [] => []
  | f :: ctx => ctxBefore ctx ++ f.before

def ctxAfter : List Frame → List Line
  | [] => []
  | f :: ctx => f.after ++ ctxAfter ctx

/-- The loops around a nest, which is at offset `off` and perhaps in its last iteration. -/
def ctxCfgs : List Frame → Nest → Nat → Bool → List LoopCfg
  | [], _, _, _ => []
  | f :: ctx, N, off, last =>
    let off := f.before.length + if last then off else 0
    ctxCfgs ctx (f.plug N) off (f.iter == f.frep.maxIter) ++
      [(f.plug N).cfg f.iter off (ctxBefore ctx).length]

/-- The nest around which there is no loop. -/
def outermost (ctx : List Frame) (N : Nest) : Nest := ctx.foldl (fun N f => f.plug N) N

/-- The sequencer at a spot of a nest, with the entries after the nest. -/
def conf (later : List Entry) (p : Spot) : Sequencer where
  loopIdx := some p.ctx.length
  loopCfg := ctxCfgs p.ctx p.nest p.off (p.iter == p.nest.maxIter) ++
    p.nest.cfg p.iter p.off (ctxBefore p.ctx).length ::
      (insideCfgs p.entered (ctxBefore p.ctx).length p.nest ++ later.flatMap Entry.cfgs)
  nestDepth := p.ctx.length + if p.entered then p.nest.depth else 1
  insns := plain (ctxBefore p.ctx) ++ (insideInsns p.entered p.nest ++
    (plain (ctxAfter p.ctx) ++ later.map Entry.insn))
  rdPtr := (ctxBefore p.ctx).length + p.off

/-- The sequencer before a nest that was never entered. -/
def door (later : List Entry) (ctx : List Frame) (N : Nest) : Sequencer where
  loopIdx := match ctx with
    | [] => none
    | _ :: ctx => some ctx.length
  loopCfg := ctxCfgs ctx N 0 false ++ (idle false 0 N ++ later.flatMap Entry.cfgs)
  nestDepth := ctx.length
  insns := plain (ctxBefore ctx) ++ (N.code.map Entry.insn ++
    (plain (ctxAfter ctx) ++ later.map Entry.insn))
  rdPtr := (ctxBefore ctx).length

section Spots

variable {later : List Entry}

@[simp] theorem length_ctxCfgs (ctx : List Frame) (N : Nest) (off : Nat) (last : Bool) :
    (ctxCfgs ctx N off last).length = ctx.length := by
  induction ctx generalizing N off last with
  | nil => rfl
  | cons f ctx ih => simp [ctxCfgs, ih]

/-- At the start of an iteration the loops around stand at the start of the nest. -/
theorem ctxCfgs_start (ctx : List Frame) (N : Nest) (off : Nat) (last : Bool) :
    ctxCfgs ctx N off false = ctxCfgs ctx N 0 last := by
  cases ctx with
  | nil => rfl
  | cons f ctx => simp [ctxCfgs]

@[simp] theorem length_idle (entered : Bool) (base : Nat) (N : Nest) :
    (idle entered base N).length = N.depth := by
  induction N generalizing base with
  | flat frep first rest => rfl
  | around frep before inner after ih => rw [idle, List.length_cons, ih, Nest.depth]

theorem idle_eq (entered : Bool) (base : Nat) (N : Nest) : idle entered base N =
    N.cfg 0 0 (if entered then base else 0) :: insideCfgs entered base N := by
  cases N <;> rfl

/-- A loop that was not entered has no base pointer. -/
theorem idle_fresh (base base' : Nat) (N : Nest) : idle false base N = idle false base' N := by
  induction N generalizing base base' with
  | flat frep first rest => rfl
  | around frep before inner after ih => rw [idle, idle, ih]; rfl

theorem insideCfgs_fresh (base base' : Nat) (N : Nest) :
    insideCfgs false base N = insideCfgs false base' N := by
  cases N with
  | flat frep first rest => rfl
  | around frep before inner after => exact idle_fresh _ _ inner

theorem code_insns (N : Nest) :
    N.code.map Entry.insn = ⟨N.frep.pc, N.frep.sec, true⟩ :: insideInsns false N := by
  cases N with
  | flat frep first rest => simp [Nest.code, insideInsns, plain, Entry.insn, Nest.body, Nest.frep]
  | around frep before inner after =>
    have lines : Entry.insn ∘ Entry.line = Line.insn := rfl
    simp [Nest.code, insideInsns, plain, Nest.frep, lines]
    rfl

theorem flatMap_line (ls : List Line) : (ls.map Entry.line).flatMap Entry.cfgs = [] := by
  induction ls with
  | nil => rfl
  | cons l ls ih => rw [List.map_cons, List.flatMap_cons, ih]; rfl

theorem code_cfgs (base : Nat) (N : Nest) : N.code.flatMap Entry.cfgs = idle false base N := by
  induction N generalizing base with
  | flat frep first rest => rw [Nest.code, List.flatMap_cons, flatMap_line]; rfl
  | around frep before inner after ih =>
    rw [Nest.code, List.flatMap_cons, List.flatMap_append, List.flatMap_append, flatMap_line,
      flatMap_line, List.append_nil, List.nil_append, ih (base + before.length)]
    rfl

theorem plain_append (ls ms : List Line) : plain (ls ++ ms) = plain ls ++ plain ms :=
  List.map_append

/-- At the inner loop the sequencer is before it. -/
theorem conf_door (ctx : List Frame) (frep : FrepLine) (before : List Line) (inner : Nest)
    (after : List Line) (iter : Nat) :
    conf later ⟨ctx, .around frep before inner after, iter, before.length, false⟩ =
      door later (⟨frep, before, after, iter⟩ :: ctx) inner := by
  simp only [conf, door, insideCfgs, insideInsns, ctxCfgs, ctxBefore, ctxAfter, Frame.plug,
    plain_append, List.append_assoc, List.length_append, List.length_cons, Bool.false_eq_true,
    if_false, Nat.add_zero]
  congr 2
  rw [idle_fresh _ 0]
  rfl

/-- An FREP at the read pointer: its loop is entered. -/
theorem enter_frep (ctx : List Frame) (N : Nest) :
    (door later ctx N).entering = (conf later ⟨ctx, N, 0, 0, false⟩).entering := by
  have there : (door later ctx N).insns.drop (door later ctx N).rdPtr =
      ⟨N.frep.pc, N.frep.sec, true⟩ :: (insideInsns false N ++
        (plain (ctxAfter ctx) ++ later.map Entry.insn)) := by
    simp only [door, code_insns]
    rw [List.drop_left' (by simp [plain])]
    rfl
  have after : (conf later ⟨ctx, N, 0, 0, false⟩).insns.drop
      (conf later ⟨ctx, N, 0, 0, false⟩).rdPtr = insideInsns false N ++
        (plain (ctxAfter ctx) ++ later.map Entry.insn) := by
    simp only [conf, Nat.add_zero]
    rw [List.drop_left' (by simp [plain])]
  have index : Sequencer.succIdx (door later ctx N).loopIdx = ctx.length := by
    cases ctx <;> rfl
  have room : ctx.length < (door later ctx N).loopCfg.length := by
    simp only [door, List.length_append, length_ctxCfgs, idle_eq, List.length_cons]
    omega
  rw [Sequencer.entering, Sequencer.entering, there, after, Sequencer.enter, if_pos rfl, index,
    if_pos room]
  congr 1
  simp only [door, conf, code_insns, idle_eq, List.cons_append]
  congr 1
  · rw [modify_mid (length_ctxCfgs ..), ctxCfgs_start ctx N 0 (0 == N.maxIter),
      insideCfgs_fresh 0 (ctxBefore ctx).length]
    rfl
  · rw [eraseIdx_mid (by simp [plain])]

theorem insideInsns_entered (N : Nest) : insideInsns true N = plain N.body := by
  cases N <;> rfl

/-- With an instruction other than an FREP at the read pointer there is nothing to enter. -/
theorem entering_of_plain {s : Sequencer} {l : Line} (here : s.insns[s.rdPtr]? = some l.insn) :
    s.entering = some s := by
  obtain ⟨short, same⟩ := List.getElem?_eq_some_iff.mp here
  rw [Sequencer.entering, List.drop_eq_getElem_cons short, same]
  rfl

/-- The instruction at a spot is at the read pointer. -/
theorem conf_here {p : Spot} (valid : p.Valid) {x : Line} (here : p.nest.body[p.off]? = some x) :
    (conf later p).insns[(conf later p).rdPtr]? = some x.insn := by
  have inside : (insideInsns p.entered p.nest)[p.off]? = some x.insn := by
    have lines : (plain p.nest.body)[p.off]? = some x.insn := by
      rw [plain, List.getElem?_map, here]
      rfl
    cases entered : p.entered with
    | true =>
      rw [insideInsns_entered]
      exact lines
    | false =>
      have early := valid.early entered
      generalize p.nest = N at early here lines ⊢
      cases N with
      | flat frep first rest => exact lines
      | around frep before inner after =>
        have early := early frep before inner after rfl
        have size : p.off < (plain before).length := by simpa [plain] using early
        have size' : p.off < (plain before ++ plain inner.body).length := by
          rw [List.length_append]
          omega
        simp only [Nest.body, plain_append] at lines
        rw [List.getElem?_append_left size', List.getElem?_append_left size] at lines
        simp only [insideInsns, Bool.false_eq_true, if_false, List.append_assoc]
        rw [List.getElem?_append_left size, lines]
  have short : p.off < (insideInsns p.entered p.nest).length :=
    (List.getElem?_eq_some_iff.mp inside).1
  have size : (plain (ctxBefore p.ctx)).length = (ctxBefore p.ctx).length := List.length_map _
  simp only [conf]
  rw [List.getElem?_append_right (by omega), size, Nat.add_sub_cancel_left,
    List.getElem?_append_left short, inside]

theorem entering_conf {p : Spot} (valid : p.Valid) :
    (conf later p).entering = some (conf later p) := by
  obtain ⟨x, here⟩ : ∃ x, p.nest.body[p.off]? = some x :=
    ⟨_, List.getElem?_eq_getElem valid.off⟩
  exact entering_of_plain (conf_here valid here)

/-- **All the loops that start at the read pointer are entered.** -/
theorem entering_door {ctx : List Frame} (N : Nest) (outer : ∀ f ∈ ctx, f.iter ≤ f.frep.maxIter) :
    (door later ctx N).entering = some (conf later (dive false ctx N)) := by
  induction N generalizing ctx with
  | flat frep first rest =>
    rw [enter_frep]
    exact entering_conf (dive_valid false (.flat frep first rest) outer)
  | around frep before inner after ih =>
    rw [enter_frep]
    cases before with
    | nil =>
      have arrived := @conf_door later ctx frep [] inner after 0
      rw [List.length_nil] at arrived
      rw [arrived]
      apply ih
      intro f mem
      rcases List.mem_cons.mp mem with rfl | mem
      · exact Nat.zero_le _
      · exact outer f mem
    | cons x before => exact entering_conf (dive_valid false (.around frep (x :: before) inner after) outer)

/-! ### The loops -/

@[simp] theorem lastIter_cfg (N : Nest) (iter inst base : Nat) :
    (N.cfg iter inst base).lastIter = some (iter == N.maxIter) := rfl

@[simp] theorem lastInst_cfg (N : Nest) (iter inst base : Nat) :
    (N.cfg iter inst base).lastInst = some (inst == N.size - 1) := rfl

/-- The loops around follow the active loop in its last iteration. -/
theorem propagate_ctx {ctx : List Frame} {N : Nest} {off : Nat} {last : Bool} {c : LoopCfg}
    (iter : c.lastIter = some last) (rest : List LoopCfg) :
    Sequencer.propagate ctx.length (ctxCfgs ctx N off last ++ c :: rest) =
      some (ctxCfgs ctx N (off + 1) last ++ c :: rest) := by
  induction ctx generalizing N off last c rest with
  | nil => rfl
  | cons f ctx ih =>
    have there : (ctxCfgs (f :: ctx) N off last ++ c :: rest)[ctx.length + 1]? = some c :=
      getElem?_mid (length_ctxCfgs (f :: ctx) N off last)
    rw [List.length_cons, Sequencer.propagate, there]
    simp only [Option.bind_eq_bind, Option.bind_some, iter]
    cases last with
    | false =>
      rw [if_neg Bool.false_ne_true, ctxCfgs_start _ _ _ false, ctxCfgs_start _ _ (off + 1) false]
    | true =>
      rw [if_pos rfl]
      simp only [ctxCfgs, if_true, List.append_assoc, List.cons_append, List.nil_append]
      rw [modify_mid (length_ctxCfgs ..)]
      exact ih rfl _

/-- The active loop advances. -/
theorem advance_conf (p : Spot) : (conf later p).advance p.ctx.length =
    some (conf later { p with off := p.off + 1 }) := by
  rw [Sequencer.advance]
  simp only [conf]
  rw [modify_mid (length_ctxCfgs ..)]
  have moved : (p.nest.cfg p.iter p.off (ctxBefore p.ctx).length).bump =
      p.nest.cfg p.iter (p.off + 1) (ctxBefore p.ctx).length := rfl
  rw [moved, propagate_ctx (lastIter_cfg ..)]
  rfl

/-- The active loop starts another iteration. -/
theorem restart_conf {p : Spot} (more : p.iter ≠ p.nest.maxIter) (entered : p.entered = true) :
    (conf later p).restart p.ctx.length = some (conf later p.restarted) := by
  have again : (p.iter == p.nest.maxIter) = false := beq_eq_false_iff_ne.mpr more
  have here : (conf later p).loopCfg[p.ctx.length]? =
      some (p.nest.cfg p.iter p.off (ctxBefore p.ctx).length) := getElem?_mid (length_ctxCfgs ..)
  rw [Sequencer.restart, here]
  simp only [conf, Option.bind_eq_bind, Option.bind_some, Spot.restarted, entered, again]
  rw [modify_mid (length_ctxCfgs ..), ctxCfgs_start _ _ _ (p.iter + 1 == p.nest.maxIter)]
  rfl

/-- The loops around that are finished with the active one are left. -/
theorem unwind_ctx (ctx : List Frame) (N : Nest) :
    Sequencer.unwind ctx.length (ctxCfgs ctx N (N.size - 1) true ++
        (idle true (ctxBefore ctx).length N ++ later.flatMap Entry.cfgs)) =
      match popped ctx N with
      | none => some (none, idle true 0 (outermost ctx N) ++ later.flatMap Entry.cfgs)
      | some q => some (some q.ctx.length, (conf later q).loopCfg) := by
  induction ctx generalizing N with
  | nil => rfl
  | cons f ctx ih =>
    have some := N.size_pos
    have size := f.size_plug N
    have base : (ctxBefore (f :: ctx)).length = (ctxBefore ctx).length + f.before.length :=
      List.length_append
    have inside : idle true (ctxBefore (f :: ctx)).length N =
        insideCfgs true (ctxBefore ctx).length (f.plug N) := by
      rw [base]
      rfl
    have off : f.before.length + (N.size - 1) = f.before.length + N.size - 1 := by omega
    simp only [ctxCfgs, if_true, List.append_assoc, List.cons_append, List.nil_append, off,
      List.length_cons, Sequencer.unwind, popped]
    rw [getElem?_mid (length_ctxCfgs ..)]
    simp only [Option.bind_eq_bind, Option.bind_some, lastIter_cfg, lastInst_cfg]
    have plug : (f.plug N).maxIter = f.frep.maxIter := rfl
    by_cases finished : f.iter = f.frep.maxIter ∧ f.after = []
    · have none : f.after.length = 0 := by rw [finished.2]; rfl
      have end' : f.before.length + N.size - 1 = (f.plug N).size - 1 := by omega
      rw [if_pos finished, plug, finished.1, end', beq_self_eq_true, beq_self_eq_true,
        Bool.and_true, if_pos rfl, modify_mid (length_ctxCfgs ..), outermost, List.foldl_cons,
        ← outermost, ← ih, inside,
        idle_eq, if_pos rfl]
      rfl
    · have stays : ((f.iter == f.frep.maxIter) &&
          (f.before.length + N.size - 1 == (f.plug N).size - 1)) = false := by
        rw [Bool.and_eq_false_iff, beq_eq_false_iff_ne, beq_eq_false_iff_ne]
        by_cases last : f.iter = f.frep.maxIter
        · have long : 0 < f.after.length :=
            List.length_pos_iff.mpr fun none => finished ⟨last, none⟩
          exact .inr (by omega)
        · exact .inl last
      rw [if_neg finished, plug, stays, if_neg Bool.false_ne_true, inside]
      rfl

/-- The active loop issued its last instruction. -/
theorem wrap_conf (p : Spot) : (conf later p).wrap p.ctx.length =
    if p.iter = p.nest.maxIter then (conf later p).leave p.ctx.length
    else (conf later p).restart p.ctx.length := by
  have here : (conf later p).loopCfg[p.ctx.length]? =
      some (p.nest.cfg p.iter p.off (ctxBefore p.ctx).length) := getElem?_mid (length_ctxCfgs ..)
  rw [Sequencer.wrap, here]
  simp only [Option.bind_eq_bind, Option.bind_some, lastIter_cfg]
  by_cases last : p.iter = p.nest.maxIter
  · rw [if_pos last, beq_iff_eq.mpr last]
    rfl
  · rw [if_neg last, beq_eq_false_iff_ne.mpr last]
    rfl

/-! ### The inner loops -/

/-- The loops that start at the read pointer and were entered before. -/
theorem descend_idle {ctx : List Frame} {rd k : Nat} (N : Nest) (pos : 0 < rd)
    (index : k + 1 = ctx.length) :
    Sequencer.descend rd (idle true rd N ++ later.flatMap Entry.cfgs) k =
      (dive true ctx N).ctx.length := by
  have fresh : ∀ k, Sequencer.descend rd (later.flatMap Entry.cfgs) k = k := by
    intro k
    induction later with
    | nil => rfl
    | cons e later ih =>
      cases e with
      | line l => exact ih
      | frep l f =>
        have zero : ¬0 = rd := by omega
        exact if_neg zero
  have first : ∀ (N : Nest) k, Sequencer.descend rd (idle true rd N ++
      later.flatMap Entry.cfgs) k =
        Sequencer.descend rd (insideCfgs true rd N ++ later.flatMap Entry.cfgs) (k + 1) := by
    intro N k
    rw [idle_eq, List.cons_append, Sequencer.descend]
    exact if_pos rfl
  induction N generalizing ctx k with
  | flat frep first' rest =>
    rw [first]
    exact (fresh (k + 1)).trans index
  | around frep before inner after ih =>
    rw [first]
    cases before with
    | nil =>
      have deeper : k + 1 + 1 = (⟨frep, [], after, 0⟩ :: ctx : List Frame).length := by
        rw [List.length_cons, index]
      exact ih deeper
    | cons x before =>
      have beyond : ¬rd + (x :: before).length = rd := by
        rw [List.length_cons]
        omega
      rw [insideCfgs, idle_eq, List.cons_append, Sequencer.descend]
      exact (if_neg beyond).trans index

/-- The state at the first instruction of a nest that was entered before. -/
theorem conf_dive (ctx : List Frame) (N : Nest) : conf later (dive true ctx N) =
    { loopIdx := some (dive true ctx N).ctx.length
      loopCfg := ctxCfgs ctx N 0 false ++ (idle true (ctxBefore ctx).length N ++
        later.flatMap Entry.cfgs)
      nestDepth := ctx.length + N.depth
      insns := plain (ctxBefore ctx) ++ (plain N.body ++
        (plain (ctxAfter ctx) ++ later.map Entry.insn))
      rdPtr := (ctxBefore ctx).length } := by
  induction N generalizing ctx with
  | flat frep first rest =>
    rw [idle_eq, ctxCfgs_start _ _ _ (0 == (Nest.flat frep first rest).maxIter)]
    rfl
  | around frep before inner after ih =>
    cases before with
    | nil =>
      rw [dive, ih]
      simp only [ctxCfgs, ctxBefore, ctxAfter, List.append_nil, List.append_assoc,
        List.cons_append, List.nil_append, List.length_cons, Nest.depth, Nest.body,
        plain_append, List.length_nil, Bool.false_eq_true, if_false, Nat.add_zero]
      rw [← ctxCfgs_start ctx _ 0 (0 == frep.maxIter), Nat.add_right_comm, Nat.add_assoc]
      rfl
    | cons x before =>
      rw [idle_eq, ctxCfgs_start _ _ _ (0 == (Nest.around frep (x :: before) inner after).maxIter)]
      rfl

/-- The state before an inner loop that was entered before. -/
theorem conf_porch (ctx : List Frame) (frep : FrepLine) (before : List Line) (inner : Nest)
    (after : List Line) (iter : Nat) :
    let f : Frame := ⟨frep, before, after, iter⟩
    conf later ⟨ctx, .around frep before inner after, iter, before.length, true⟩ =
      { loopIdx := some ctx.length
        loopCfg := ctxCfgs (f :: ctx) inner 0 false ++ (idle true (ctxBefore (f :: ctx)).length inner ++
          later.flatMap Entry.cfgs)
        nestDepth := (f :: ctx).length + inner.depth
        insns := plain (ctxBefore (f :: ctx)) ++ (plain inner.body ++
          (plain (ctxAfter (f :: ctx)) ++ later.map Entry.insn))
        rdPtr := (ctxBefore (f :: ctx)).length } := by
  intro f
  have depth : ctx.length + (inner.depth + 1) = ctx.length + 1 + inner.depth := by omega
  simp only [f, conf, insideCfgs, insideInsns, ctxCfgs, ctxBefore, ctxAfter, Frame.plug, Nest.body,
    Nest.depth, plain_append, List.append_assoc, List.length_append, List.length_cons,
    Bool.false_eq_true, if_false, if_true, Nat.add_zero, depth]
  rfl

/-- Nothing starts at the read pointer. -/
theorem descend_apart {rd k : Nat} {cfg : List LoopCfg}
    (apart : ∀ c, cfg.head? = some c → c.basePtr ≠ rd) : Sequencer.descend rd cfg k = k := by
  cases cfg with
  | nil => rfl
  | cons c cfg => exact if_neg (apart c rfl)

theorem later_base {c : LoopCfg} (head : (later.flatMap Entry.cfgs).head? = some c) :
    c.basePtr = 0 := by
  induction later with
  | nil => cases head
  | cons e later ih =>
    cases e with
    | line l => exact ih head
    | frep l f =>
      cases head
      rfl

/-! ### One issue -/

/-- The state after the active loop advances is the one at the following spot, up to the
loops that are to be entered. -/
theorem following_conf {p : Spot} (valid : p.Valid) (more : p.off + 1 < p.nest.size) :
    Sequencer.entering { conf later { p with off := p.off + 1 } with
      loopIdx := some (Sequencer.descend (conf later { p with off := p.off + 1 }).rdPtr
        ((conf later { p with off := p.off + 1 }).loopCfg.drop (p.ctx.length + 1)) p.ctx.length) } =
      some (conf later p.following) := by
  have inside : (conf later { p with off := p.off + 1 }).loopCfg.drop (p.ctx.length + 1) =
      insideCfgs p.entered (ctxBefore p.ctx).length p.nest ++ later.flatMap Entry.cfgs := by
    simp only [conf]
    rw [← List.drop_drop, List.drop_left' (length_ctxCfgs ..)]
    rfl
  have rd : (conf later { p with off := p.off + 1 }).rdPtr =
      (ctxBefore p.ctx).length + (p.off + 1) := rfl
  have goal := Spot.next_valid valid (q := p.following) (if_pos more)
  rw [inside, rd]
  obtain ⟨ctx, N, iter, off, entered⟩ := p
  by_cases starts : ∃ frep before inner after, N = .around frep before inner after ∧
      off + 1 = before.length
  · obtain ⟨frep, before, inner, after, rfl, last⟩ := starts
    have outer : ∀ f ∈ (⟨frep, before, after, iter⟩ :: ctx : List Frame), f.iter ≤ f.frep.maxIter := by
      intro f mem
      rcases List.mem_cons.mp mem with rfl | mem
      · exact valid.iter
      · exact valid.ctx f mem
    have dives : Spot.following ⟨ctx, .around frep before inner after, iter, off, entered⟩ =
        dive entered (⟨frep, before, after, iter⟩ :: ctx) inner := if_pos last
    have base : (ctxBefore ctx).length + before.length =
        (ctxBefore (⟨frep, before, after, iter⟩ :: ctx)).length := List.length_append.symm
    simp only at goal ⊢
    rw [dives] at goal ⊢
    rw [last]
    cases entered with
    | false =>
      have stays : Sequencer.descend ((ctxBefore ctx).length + before.length)
          (insideCfgs false (ctxBefore ctx).length (.around frep before inner after) ++
            later.flatMap Entry.cfgs) ctx.length = ctx.length := by
        apply descend_apart
        intro c head
        rw [insideCfgs, idle_eq] at head
        cases head
        show 0 ≠ _
        omega
      rw [stays, conf_door]
      exact entering_door inner outer
    | true =>
      have goes := @descend_idle later (⟨frep, before, after, iter⟩ :: ctx)
        ((ctxBefore ctx).length + before.length) _ inner (by omega) rfl
      rw [insideCfgs, goes]
      have arrived := @entering_conf later _ goal
      rw [conf_dive] at arrived ⊢
      rw [← arrived]
      congr 1
      rw [conf_porch]
  · have apart : ∀ frep before inner after, N = .around frep before inner after →
        off + 1 ≠ before.length :=
      fun frep before inner after same last => starts ⟨frep, before, inner, after, same, last⟩
    have follows : Spot.following ⟨ctx, N, iter, off, entered⟩ = ⟨ctx, N, iter, off + 1, entered⟩ :=
      Spot.following_of_apart apart
    have stays : Sequencer.descend ((ctxBefore ctx).length + (off + 1))
        (insideCfgs entered (ctxBefore ctx).length N ++ later.flatMap Entry.cfgs) ctx.length =
          ctx.length := by
      apply descend_apart
      intro c head
      cases N with
      | flat frep first rest =>
        have zero : c.basePtr = 0 := later_base head
        omega
      | around frep before inner after =>
        have apart := apart frep before inner after rfl
        rw [insideCfgs, idle_eq] at head
        cases head
        show (if entered then (ctxBefore ctx).length + before.length else 0) ≠ _
        split <;> omega
    simp only at goal ⊢
    rw [follows] at goal ⊢
    rw [stays]
    exact entering_conf goal

/-- At the last instruction of a loop the loops inside were entered. -/
theorem conf_last {p : Spot} (valid : p.Valid) (last : p.off + 1 = p.nest.size) :
    conf later p = conf later { p with entered := true } := by
  obtain ⟨ctx, N, iter, off, entered⟩ := p
  cases entered with
  | true => rfl
  | false =>
    cases N with
    | flat frep first rest => rfl
    | around frep before inner after =>
      have early : off < before.length := valid.early rfl frep before inner after rfl
      have apart := Spot.size_apart frep before inner after rfl
      have some := inner.size_pos
      have size := (Frame.mk frep before after 0).size_plug inner
      simp only [Frame.plug] at last size
      omega

theorem body_outermost (ctx : List Frame) (N : Nest) :
    (outermost ctx N).body = ctxBefore ctx ++ (N.body ++ ctxAfter ctx) := by
  induction ctx generalizing N with
  | nil => simp [outermost, ctxBefore, ctxAfter]
  | cons f ctx ih =>
    rw [outermost, List.foldl_cons, ← outermost, ih]
    simp [ctxBefore, ctxAfter, Frame.plug, Nest.body]

theorem depth_outermost (ctx : List Frame) (N : Nest) :
    (outermost ctx N).depth = ctx.length + N.depth := by
  induction ctx generalizing N with
  | nil => simp [outermost]
  | cons f ctx ih =>
    rw [outermost, List.foldl_cons, ← outermost, ih]
    simp only [Frame.plug, Nest.depth, List.length_cons]
    omega

/-- Once all loops are entered, the queue is the body of the nest. -/
theorem insns_conf {p : Spot} (entered : p.entered = true) : (conf later p).insns =
    plain (outermost p.ctx p.nest).body ++ later.map Entry.insn := by
  simp only [conf, entered, insideInsns_entered, body_outermost, plain_append, List.append_assoc]

theorem depth_conf {p : Spot} (entered : p.entered = true) :
    (conf later p).nestDepth = (outermost p.ctx p.nest).depth := by
  rw [depth_outermost, conf, entered]
  rfl

/-- The resumed loop is one of the same nest, at the same instruction. -/
theorem popped_outermost {ctx : List Frame} {N : Nest} {q : Spot} (pops : popped ctx N = some q) :
    outermost q.ctx q.nest = outermost ctx N ∧
      (ctxBefore q.ctx).length + q.off = (ctxBefore ctx).length + (N.size - 1) := by
  induction ctx generalizing N with
  | nil => cases pops
  | cons f ctx ih =>
    have some := N.size_pos
    have size := f.size_plug N
    rw [ctxBefore, List.length_append]
    rw [popped] at pops
    split at pops
    · next finished =>
        have none : f.after.length = 0 := by rw [finished.2]; rfl
        obtain ⟨same, place⟩ := ih pops
        exact ⟨same, by omega⟩
    · cases pops
      refine ⟨rfl, ?_⟩
      simp only
      omega

/-- **The nest is finished**, and nothing of it is left. -/
theorem finish_conf (p : Spot) (entered : p.entered = true) :
    Sequencer.finish { conf later p with
      loopIdx := none
      loopCfg := idle true 0 (outermost p.ctx p.nest) ++ later.flatMap Entry.cfgs } =
      some (queued later) := by
  have insns := @insns_conf later p entered
  have depth := @depth_conf later p entered
  have size : (outermost p.ctx p.nest).size - 1 + 1 =
      (plain (outermost p.ctx p.nest).body).length := by
    have some := (outermost p.ctx p.nest).size_pos
    rw [plain, List.length_map, ← Nest.size]
    omega
  have head : (idle true 0 (outermost p.ctx p.nest) ++ later.flatMap Entry.cfgs)[0]? =
      some ((outermost p.ctx p.nest).cfg 0 0 0) := by
    rw [idle_eq]
    rfl
  rw [Sequencer.finish]
  simp only [head, Option.bind_eq_bind, Option.bind_some, Nest.cfg, Nest.config, insns, depth, size]
  rw [List.drop_left, List.drop_left' (length_idle ..)]
  rfl

/-- The loops when the active one is reset. -/
theorem reset_conf {p : Spot} (entered : p.entered = true) (inst : p.off + 1 = p.nest.size)
    (iter : p.iter = p.nest.maxIter) :
    (conf later p).loopCfg.modify p.ctx.length LoopCfg.reset =
      ctxCfgs p.ctx p.nest (p.nest.size - 1) true ++
        (idle true (ctxBefore p.ctx).length p.nest ++ later.flatMap Entry.cfgs) := by
  have off : p.off = p.nest.size - 1 := by omega
  have last : (p.iter == p.nest.maxIter) = true := beq_iff_eq.mpr iter
  have reset : (p.nest.cfg p.iter p.off (ctxBefore p.ctx).length).reset ::
      (insideCfgs p.entered (ctxBefore p.ctx).length p.nest ++ later.flatMap Entry.cfgs) =
        idle true (ctxBefore p.ctx).length p.nest ++ later.flatMap Entry.cfgs := by
    rw [idle_eq, entered]
    rfl
  simp only [conf]
  rw [modify_mid (length_ctxCfgs ..), reset, last, ← off]

/-- The active loop is finished. -/
theorem leave_conf {p : Spot} (valid : p.Valid) (entered : p.entered = true)
    (inst : p.off + 1 = p.nest.size) (iter : p.iter = p.nest.maxIter) :
    (conf later p).leave p.ctx.length =
      match (popped p.ctx p.nest).map Spot.resumed with
      | none => some (queued later)
      | some q => some (conf later q) := by
  rw [Sequencer.leave, reset_conf entered inst iter, unwind_ctx]
  cases pops : popped p.ctx p.nest with
  | none => exact finish_conf p entered
  | some q =>
    obtain ⟨valid', goes, entered'⟩ := popped_valid valid.ctx pops
    have state : { conf later p with
        loopIdx := some q.ctx.length, loopCfg := (conf later q).loopCfg } = conf later q := by
      obtain ⟨same, place⟩ := popped_outermost pops
      have insns : (conf later p).insns = (conf later q).insns := by
        rw [insns_conf entered, insns_conf entered', same]
      have depth : (conf later p).nestDepth = (conf later q).nestDepth := by
        rw [depth_conf entered, depth_conf entered', same]
      have rd : (conf later p).rdPtr = (conf later q).rdPtr := by
        simp only [conf]
        omega
      simp only [insns, depth, rd]
      rfl
    have here : (conf later q).loopCfg[q.ctx.length]? =
        some (q.nest.cfg q.iter q.off (ctxBefore q.ctx).length) := getElem?_mid (length_ctxCfgs ..)
    simp only [Option.bind_eq_bind, Option.bind_some, state, here, lastInst_cfg, Option.map_some,
      Spot.resumed]
    by_cases more : q.off + 1 < q.nest.size
    · have inside : (q.off == q.nest.size - 1) = false := by
        rw [beq_eq_false_iff_ne]
        omega
      rw [inside, if_pos more]
      exact advance_conf q
    · have last : (q.off == q.nest.size - 1) = true := by
        have short := valid'.off
        rw [beq_iff_eq]
        omega
      have again : q.iter ≠ q.nest.maxIter := Nat.ne_of_lt (goes.resolve_left more)
      rw [last, if_neg more]
      exact restart_conf again entered'

/-- **One issue.**  The instruction at a spot is issued, and the sequencer is at the next
spot, or nothing is left of the nest. -/
theorem issue_conf {p : Spot} (valid : p.Valid) {x : Line} (here : p.nest.body[p.off]? = some x) :
    ∃ status s, (conf later p).issue = some (⟨x.pc, x.sec, status⟩, s) ∧
      match p.next with
      | none => s = queued later
      | some q => s.entering = some (conf later q) := by
  have cfg : (conf later p).loopCfg[p.ctx.length]? =
      some (p.nest.cfg p.iter p.off (ctxBefore p.ctx).length) := getElem?_mid (length_ctxCfgs ..)
  have index : (conf later p).loopIdx = some p.ctx.length := rfl
  rw [Sequencer.issue, conf_here valid here, index]
  simp only [Option.bind_eq_bind, Option.bind_some, cfg, Sequencer.issued, lastInst_cfg]
  rw [Spot.next]
  by_cases more : p.off + 1 < p.nest.size
  · have inside : (p.off == p.nest.size - 1) = false := by
      rw [beq_eq_false_iff_ne]
      omega
    rw [inside, if_pos more, Bool.not_false, if_pos rfl, advance_conf]
    exact ⟨_, _, rfl, following_conf valid more⟩
  · have short := valid.off
    have size : p.off + 1 = p.nest.size := by omega
    have last : (p.off == p.nest.size - 1) = true := by
      rw [beq_iff_eq]
      omega
    have valid' : Spot.Valid { p with entered := true } :=
      ⟨valid.iter, valid.off, valid.ctx, fun fresh => absurd fresh (by simp)⟩
    have wraps := @wrap_conf later { p with entered := true }
    simp only at wraps
    rw [last, if_neg more, Bool.not_true, if_neg Bool.false_ne_true, conf_last valid size, wraps]
    by_cases again : p.iter = p.nest.maxIter
    · have stays : ¬p.iter < p.nest.maxIter := by omega
      have leaves := @leave_conf later _ valid' rfl size again
      simp only at leaves
      rw [if_neg stays, if_pos again, leaves]
      cases goes : (popped p.ctx p.nest).map Spot.resumed with
      | none => exact ⟨_, _, rfl, rfl⟩
      | some q =>
        have next : p.next = some q := by
          rw [Spot.next, if_neg more, if_neg stays, goes]
        exact ⟨_, _, rfl, entering_conf (Spot.next_valid valid next)⟩
    · have below : p.iter < p.nest.maxIter := Nat.lt_of_le_of_ne valid.iter again
      have restarts := @restart_conf later { p with entered := true } again rfl
      have next : p.next = some p.restarted := by
        rw [Spot.next, if_neg more, if_pos below]
      simp only at restarts
      rw [if_pos below, if_neg again, restarts]
      exact ⟨_, _, rfl, entering_conf (Spot.next_valid valid next)⟩

/-- What the sequencer is going to issue of the nest. -/
def Stands (later : List Entry) (left : List Line) (s : Sequencer) : Prop :=
  (∃ p : Spot, p.Valid ∧ s.entering = some (conf later p) ∧ p.left = left) ∨
    (left = [] ∧ s = queued later)

/-- With the nest pushed, `emitted` is left. -/
theorem stands_start (N : Nest) : Stands later N.emitted (queued (N.code ++ later)) := by
  have start : queued (N.code ++ later) = door later [] N := by
    simp only [queued, Sequencer.extend, door, ctxBefore, ctxAfter, ctxCfgs, plain, List.map_append,
      List.flatMap_append, code_cfgs 0, List.map_nil, List.nil_append, List.length_nil]
  have none : ∀ f ∈ ([] : List Frame), f.iter ≤ f.frep.maxIter := fun f mem => absurd mem List.not_mem_nil
  refine .inl ⟨dive false [] N, dive_valid false N none, ?_, ?_⟩
  · rw [start]
    exact entering_door N none
  · rw [left_dive]
    exact List.append_nil _

/-- **One call of `emulate`** issues the first of what is left. -/
theorem stands_step {s : Sequencer} {x : Line} {left : List Line}
    (stands : Stands later (x :: left) s) :
    ∃ status s', s.emulate = some (⟨x.pc, x.sec, status⟩, s') ∧ Stands later left s' := by
  rcases stands with ⟨p, valid, arrives, rest⟩ | ⟨none, -⟩
  · obtain ⟨y, here⟩ : ∃ y, p.nest.body[p.off]? = some y :=
      ⟨_, List.getElem?_eq_getElem valid.off⟩
    obtain ⟨status, s', issues, after⟩ := @issue_conf later _ valid _ here
    have split := p.left_next valid here
    rw [rest] at split
    obtain ⟨rfl, tail⟩ := List.cons.inj split
    refine ⟨status, s', ?_, ?_⟩
    · rw [Sequencer.emulate, arrives]
      exact issues
    · cases next : p.next with
      | none =>
        rw [next] at after tail
        exact .inr ⟨tail, after⟩
      | some q =>
        rw [next] at after tail
        exact .inl ⟨q, Spot.next_valid valid next, after, tail.symm⟩
  · cases none

/-- When nothing is left, nothing of the nest is left in the sequencer. -/
theorem stands_nil {s : Sequencer} (stands : Stands later [] s) : s = queued later := by
  rcases stands with ⟨p, valid, -, rest⟩ | ⟨-, done⟩
  · have split := p.left_next valid (List.getElem?_eq_getElem valid.off)
    rw [rest] at split
    cases split
  · exact done

end Spots

end SnitchCluster.Trace
