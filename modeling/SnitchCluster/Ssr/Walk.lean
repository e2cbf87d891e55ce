/-
# Ssr.Walk -- the loop counters as an odometer

The loop counters share one pointer, and it adds only the stride of the outermost
loop that advances.  `Walk` reads the counters of an affine job as a chain of
odometer levels: a cycle in which they advance is one step of the odometer
(`levels_next`), and what the output stage holds and what is to come leave through
the memory port in order (`conserve`).  `Walk.streams` says what a whole run shows.

The innermost counter of a stream with indirection has one reading more when
`natit_extraword` is set.  That wire looks at the byte offsets of the pointer and
of the bound in every job, indirect or not.
-/
import Mathlib.Data.BitVec
import SnitchCluster.Ssr.AddrGen
import SnitchCluster.Theory.Odometer

namespace SnitchCluster.Ssr.AddrGen

open Theory Theory.Odometer

variable {C : Cfg} {P : AgParts C}

/-! ## The counters as an odometer -/

/-- The innermost loop runs once more. -/
def extra (s : AddrGen P) : Bool :=
  C.Indirection && !C.IsectSlave &&
    ((s.pointer.setWidth C.BytecntWidth).setWidth (C.BytecntWidth + 1) +
      ((s.regs.bound (base C)).setWidth C.BytecntWidth <<< s.regs.idxSize.toNat).setWidth
        (C.BytecntWidth + 1)).msb

theorem extra_eq (s : AddrGen P) (i : AgIn C) :
    s.extra = (C.Indirection && s.natitExtraword i) := by
  rw [extra, Bool.and_assoc]
  rfl

/-- Loop `k` is beyond the dimensions of the job. -/
def Masked (s : AddrGen P) (k : Fin C.NumLoops) : Prop := s.config.dims.toNat < k.val

instance (s : AddrGen P) (k : Fin C.NumLoops) : Decidable (s.Masked k) :=
  inferInstanceAs (Decidable (_ < _))

theorem not_masked_base (s : AddrGen P) : ¬s.Masked (base C) := Nat.not_lt_zero _

/-- The base loop is at its extra reading, which `natit_base_last_q` marks. -/
def Beyond (e : Bool) (s : AddrGen P) (k : Fin C.NumLoops) : Prop :=
  k = base C ∧ (e && s.natitBaseLast) = true

instance (e : Bool) (s : AddrGen P) (k : Fin C.NumLoops) : Decidable (s.Beyond e k) :=
  inferInstanceAs (Decidable (_ ∧ _))

/-- Loop `k` as an odometer level. -/
def level (e : Bool) (s : AddrGen P) (k : Fin C.NumLoops) : Level (BitVec C.PointerWidth) where
  idx := if s.Beyond e k then (s.regs.bound k).toNat + 1 else (s.index k).toNat
  bound :=
    if k = base C then (s.regs.bound k).toNat + e.toNat
    else if s.Masked k then 0 else (s.regs.bound k).toNat
  stride := s.regs.stride k

def levels (e : Bool) (s : AddrGen P) : List (Level (BitVec C.PointerWidth)) :=
  List.ofFn (level e s)

theorem bound_base (e : Bool) (s : AddrGen P) :
    (level e s (base C)).bound = (s.regs.bound (base C)).toNat + e.toNat := by
  rw [level, if_pos rfl]

theorem idx_beyond {e : Bool} {s : AddrGen P} {k : Fin C.NumLoops} (further : s.Beyond e k) :
    (level e s k).idx = (s.regs.bound k).toNat + 1 := by
  rw [level, if_pos further]

theorem idx_within {e : Bool} {s : AddrGen P} {k : Fin C.NumLoops} (further : ¬s.Beyond e k) :
    (level e s k).idx = (s.index k).toNat := by
  rw [level, if_neg further]

theorem bound_masked (e : Bool) {s : AddrGen P} {k : Fin C.NumLoops} (masked : s.Masked k) :
    (level e s k).bound = 0 := by
  have upper : k ≠ base C := fun at_base => s.not_masked_base (at_base ▸ masked)
  rw [level, if_neg upper, if_pos masked]

theorem bound_upper (e : Bool) {s : AddrGen P} {k : Fin C.NumLoops} (upper : k ≠ base C)
    (used : ¬s.Masked k) : (level e s k).bound = (s.regs.bound k).toNat := by
  rw [level, if_neg upper, if_neg used]

/-- Without an extra reading a used loop has the bound of its register. -/
theorem bound_used {s : AddrGen P} {k : Fin C.NumLoops} (used : ¬s.Masked k) :
    (level false s k).bound = (s.regs.bound k).toNat := by
  by_cases at_base : k = base C
  · rw [at_base, bound_base]
    rfl
  · exact bound_upper false at_base used

theorem levels_getElem (e : Bool) (s : AddrGen P) {m : Nat} (inside : m < (levels e s).length) :
    (levels e s)[m] = level e s ⟨m, by rwa [levels, List.length_ofFn] at inside⟩ :=
  List.getElem_ofFn inside

/-! ## What the loop logic computes -/

theorem loopEnabled_iff (s : AddrGen P) (i : AgIn C) (k : Fin C.NumLoops) :
    s.loopEnabled i k = true ↔ ∀ j < k, s.loopLast i j = true := by
  rw [loopEnabled, List.all_eq_true]
  constructor
  · intro all j less
    have here := all j (List.mem_finRange j)
    rwa [Bool.or_eq_true, decide_eq_true_iff, or_iff_right (Fin.not_le.mpr less)] at here
  · intro below j _
    rw [Bool.or_eq_true, decide_eq_true_iff]
    exact (Nat.lt_or_ge j k).elim (fun less => Or.inr (below j less)) Or.inl

theorem done_iff (s : AddrGen P) (i : AgIn C) :
    s.done i = true ↔ ∀ j, s.loopLast i j = true := by
  rw [done, List.all_eq_true]
  exact ⟨fun all j => all j (List.mem_finRange j), fun all j _ => all j⟩

/-- Only the first loop that does not wrap is outermost. -/
theorem outermost_iff {s : AddrGen P} {i : AgIn C} {k : Fin C.NumLoops}
    (below : ∀ j < k, s.loopLast i j = true) (free : ¬s.loopLast i k = true)
    (j : Fin C.NumLoops) : s.outermost i j = true ↔ j = k := by
  rw [outermost, Bool.and_eq_true, loopEnabled_iff, Bool.not_eq_true', ← Bool.not_eq_true]
  constructor
  · rintro ⟨enabled, top⟩
    have upto : j ≤ k := Fin.not_lt.mp fun less => free (enabled k less)
    rcases Fin.lt_or_eq_of_le upto with less | same
    · have above : j.val + 1 < C.NumLoops := by omega
      rw [dif_pos above, loopEnabled_iff] at top
      exact absurd (fun m lower => below m (by
        have : m.val < j.val + 1 := lower
        exact Fin.lt_def.mpr (by omega))) top
    · exact same
  · rintro rfl
    refine ⟨below, ?_⟩
    split
    · rename_i above
      rw [loopEnabled_iff]
      exact fun enabled => free (enabled j (Fin.lt_def.mpr (Nat.lt_succ_self _)))
    · exact Bool.false_ne_true

theorem foldl_or_select {n w : Nat} (f : Fin n → BitVec w) (chosen : Fin n → Bool) (k : Fin n)
    (only : ∀ j, chosen j = true ↔ j = k) (acc : BitVec w) (l : List (Fin n)) :
    l.foldl (fun x j => if chosen j then x ||| f j else x) acc =
      if k ∈ l then acc ||| f k else acc := by
  induction l generalizing acc with
  | nil => rfl
  | cons j l ih =>
    rw [List.foldl_cons, ih]
    by_cases same : j = k
    · subst same
      simp [(only j).mpr rfl, BitVec.or_assoc]
    · have skip : ¬chosen j = true := fun picked => same ((only j).mp picked)
      simp [skip, Ne.symm same]

theorem selectedStride_eq {s : AddrGen P} {i : AgIn C} (affine : s.config.indir = false)
    {k : Fin C.NumLoops} (below : ∀ j < k, s.loopLast i j = true)
    (free : ¬s.loopLast i k = true) : s.selectedStride i = s.regs.stride k := by
  rw [selectedStride, affine, Bool.and_false, if_neg Bool.false_ne_true,
    foldl_or_select s.regs.stride (s.outermost i) k (outermost_iff below free),
    if_pos (List.mem_finRange k)]
  exact BitVec.zero_or

/-- The elements the output stage holds. -/
def queue (s : AddrGen P) : List (OutElem C) :=
  if C.Indirection then P.outSpill.contents s.spill else []

/-! ## The output stage -/

/-- What is handed to the output stage and what it holds leave through its output. -/
theorem output_next (s : AddrGen P) (i : AgIn C) (indirection : C.Indirection = true) :
    s.queue ++ (if s.spillInValid i && s.spillInReady i then
        [s.spillInData i (s.indir.memLast (s.indirIn i) (s.spillInReady i))] else []) =
      (if s.memPtrHs i then [s.memElem i] else []) ++ (s.next i).queue := by
  have law := P.outSpill.lawful.conserve s.spill (s.spillInValid i)
    (s.spillInData i (s.indir.memLast (s.indirIn i) (s.spillInReady i))) (s.spillOutReady i)
  simp only [queue, next, memElem, memPtrHs, indirection, if_true]
  exact law

/-- The output stage holds no kill and is handed none. -/
structure NoKill (s : AddrGen P) (i : AgIn C) : Prop where
  held : ∀ x ∈ s.queue, x.kill = false
  handed : (s.spillInData i false).kill = false

namespace NoKill

variable {s : AddrGen P} {i : AgIn C} (noKill : NoKill s i)

include noKill

/-- What the output stage shows is no kill. -/
theorem kill_of_valid (indirection : C.Indirection = true) (valid : s.spillOutValid i = true) :
    s.memKill i = false := by
  have harmless := noKill.held
  rw [queue, indirection, if_pos rfl] at harmless
  rw [spillOutValid, P.outSpill.lawful.valid_eq] at valid
  rw [memKill, indirection, Bool.true_and]
  cases held : P.outSpill.contents s.spill with
  | nil =>
    rw [held, List.isEmpty_nil, Bool.not_true, Bool.false_or, Bool.and_eq_true] at valid
    rw [P.outSpill.lawful.wire_data valid.1]
    exact noKill.handed
  | cons x rest =>
    rw [P.outSpill.lawful.data_head _ x rest _ held, harmless x (held ▸ List.mem_cons_self)]

theorem memPtrHs_eq : s.memPtrHs i = s.memHs i := by
  rw [memPtrHs, memHs, memValid]
  cases indirection : C.Indirection with
  | false => rfl
  | true =>
    rw [if_pos rfl, if_pos rfl, spillOutReady]
    cases valid : s.spillOutValid i with
    | false => rfl
    | true => simp [noKill.kill_of_valid indirection valid]

theorem none : (s.memPtrHs i && s.memKill i) = false := by
  cases indirection : C.Indirection with
  | false => rw [memKill, indirection, Bool.false_and, Bool.and_false]
  | true =>
    rw [memPtrHs, indirection, if_pos rfl]
    cases valid : s.spillOutValid i with
    | false => rfl
    | true => rw [noKill.kill_of_valid indirection valid, Bool.and_false]

/-- The job ends with the element flagged last. -/
theorem config_next (running : s.config.done = false) :
    (s.next i).config = { s.config with done := s.memHs i && (s.memElem i).last } := by
  have kills := noKill.none
  have register : (s.next i).config = s.configNext i := rfl
  have stays : ¬s.config.done = true := Bool.not_eq_true _ ▸ running
  rw [register, configNext, if_neg stays, ← noKill.memPtrHs_eq]
  cases shown : s.memPtrHs i with
  | true =>
    rw [shown, Bool.true_and] at kills
    rw [if_pos rfl, kills, Bool.or_false, Bool.true_and]
  | false =>
    have same : s.config = { s.config with done := false } := by rw [← running]
    rw [if_neg Bool.false_ne_true, Bool.false_and]
    exact same

/-- What is handed to the output stage and what it holds leave through the port. -/
theorem queue_next (indirection : C.Indirection = true) :
    s.queue ++ (if s.spillInValid i && s.spillInReady i then
        [s.spillInData i (s.indir.memLast (s.indirIn i) (s.spillInReady i))] else []) =
      (if s.memHs i then [s.memElem i] else []) ++ (s.next i).queue := by
  rw [← noKill.memPtrHs_eq]
  exact s.output_next i indirection

end NoKill

/-! ## Walks -/

/-- All addresses have been handed to the output stage. -/
def issued (s : AddrGen P) : Bool :=
  if C.Indirection then s.natitLastWordInflight else s.config.done

/-- An element as the walk counts it. -/
def mark (x : OutElem C) : BitVec C.PointerWidth × Bool := (x.pointer, x.last)

/-- The addresses to come. -/
def toCome (e : Bool) (s : AddrGen P) : List (BitVec C.PointerWidth × Bool) :=
  if s.issued then [] else flagLast (remaining (levels e s) 0 s.pointer)

/-- A walk in progress: the counters of an affine job read as levels. -/
structure Walk (e : Bool) (s : AddrGen P) : Prop where
  affine : s.config.indir = false
  extraword : s.issued = false → s.extra = e
  aligned : ∀ k, ¬s.Masked k → (s.regs.stride k).setWidth C.BytecntWidth = 0
  masked : ∀ k, s.Masked k → s.index k = 0
  beyond : ∀ k, s.Beyond e k → s.index k = s.regs.bound k + 1
  within : ∀ k, ¬s.Masked k → ¬s.Beyond e k → (s.index k).toNat ≤ (s.regs.bound k).toNat
  settled : s.issued = true → ∀ k, s.index k = 0
  harmless : ∀ x ∈ s.queue, x.kill = false

theorem issued_next {s : AddrGen P} (running : s.config.done = false) (i : AgIn C) :
    (s.next i).issued = (s.issued || (s.enable i && s.done i)) := by
  cases indirection : C.Indirection with
  | true =>
    simp only [issued, indirection, if_true, next, ffLoadClear, running, Bool.true_and,
      Bool.false_eq_true, if_false]
    cases s.enable i && s.done i <;> simp
  | false =>
    simp only [issued, indirection, next, configNext, running, memPtrHs, enable, memElem, memKill,
      Bool.false_eq_true, if_false, Bool.false_and, Bool.or_false, Bool.false_or, Bool.not_false,
      Bool.true_and]
    cases i.memReady <;> simp [running]

theorem regs_next {s : AddrGen P} (running : s.config.done = false) (i : AgIn C) :
    (s.next i).regs = s.regs := by
  simp [next, running]

namespace Walk

variable {e : Bool} {s : AddrGen P} (walk : Walk e s)

include walk

theorem level_within (k : Fin C.NumLoops) : (level e s k).idx ≤ (level e s k).bound := by
  by_cases further : s.Beyond e k
  · obtain ⟨rfl, flag⟩ := id further
    have set : e = true := (Bool.and_eq_true _ _ ▸ flag).1
    rw [bound_base, idx_beyond further, set]
    exact Nat.le_refl _
  · by_cases masked : s.Masked k
    · rw [bound_masked e masked, idx_within further, walk.masked k masked]
      exact Nat.le_refl _
    · have below := walk.within k masked further
      by_cases at_base : k = base C
      · subst at_base
        rw [bound_base, idx_within further]
        exact Nat.le_add_right_of_le below
      · rw [bound_upper e at_base masked, idx_within further]
        exact below

theorem natitBaseBound_eq : s.natitBaseBound = s.regs.bound (base C) := by
  simp only [natitBaseBound, walk.affine, Bool.false_eq_true, if_false]
  exact BitVec.ushiftRight_zero _

/-- The base loop wraps where its level does. -/
theorem last_base_iff (fresh : s.issued = false) (i : AgIn C) :
    Last (level e s (base C)) ↔ s.loopLast i (base C) = true := by
  have word := (s.extra_eq i).symm.trans (walk.extraword fresh)
  rw [Last, loopLast, if_pos rfl, bound_base, natitBaseLastD, walk.natitBaseBound_eq]
  by_cases further : s.Beyond e (base C)
  · have flags := further.2
    rw [Bool.and_eq_true] at flags
    rw [flags.1, Bool.and_eq_true] at word
    rw [idx_beyond further, word.1, word.2, flags.1, flags.2]
    simp
  · have below := walk.within _ s.not_masked_base further
    rw [idx_within further]
    cases set : e with
    | true =>
      have clear : s.natitBaseLast = false := by
        rw [← Bool.not_eq_true]
        exact fun flag => further ⟨rfl, by rw [set, flag]; rfl⟩
      rw [set, Bool.and_eq_true] at word
      rw [word.1, word.2, clear]
      simp only [Bool.toNat_true, if_true, Bool.false_eq_true, iff_false]
      omega
    | false =>
      rw [set] at word
      have reads : (if C.Indirection = true then
          if s.natitExtraword i = true then s.natitBaseLast
            else s.index (base C) == s.regs.bound (base C)
        else s.index (base C) == s.regs.bound (base C)) =
          (s.index (base C) == s.regs.bound (base C)) := by
        cases indirection : C.Indirection with
        | false => simp
        | true =>
          rw [indirection, Bool.true_and] at word
          simp [word]
      rw [reads, beq_iff_eq, ← BitVec.toNat_inj]
      rfl

/-- The counters wrap where the levels do. -/
theorem last_iff (fresh : s.issued = false) (i : AgIn C) (k : Fin C.NumLoops) :
    Last (level e s k) ↔ s.loopLast i k = true := by
  by_cases at_base : k = base C
  · rw [at_base]
    exact walk.last_base_iff fresh i
  · have further : ¬s.Beyond e k := fun beyond => at_base beyond.1
    rw [Last, loopLast, if_neg at_base, walk.affine, Bool.false_or, Bool.or_eq_true, beq_iff_eq,
      decide_eq_true_iff]
    by_cases masked : s.Masked k
    · rw [bound_masked e masked, idx_within further, walk.masked k masked]
      exact iff_of_true rfl (Or.inr masked)
    · rw [bound_upper e at_base masked, idx_within further, BitVec.toNat_inj]
      exact (or_iff_left masked).symm

theorem done_iff (fresh : s.issued = false) (i : AgIn C) :
    Done (levels e s) ↔ s.done i = true := by
  rw [AddrGen.done_iff, Done, levels, List.forall_mem_ofFn_iff]
  exact forall_congr' fun k => walk.last_iff fresh i k

theorem levels_within : ∀ l ∈ levels e s, l.idx ≤ l.bound := by
  rw [levels, List.forall_mem_ofFn_iff]
  exact walk.level_within

/-- While counting, the loop logic picks the stride the levels select. -/
theorem selected_eq (fresh : s.issued = false) (i : AgIn C) (running : ¬s.done i = true) :
    ∃ k, ¬s.Masked k ∧ s.selectedStride i = s.regs.stride k ∧
      selected (levels e s) = some (s.regs.stride k) := by
  obtain ⟨k, below, free, stride⟩ :=
    exists_first_free (level e s) fun done => running ((walk.done_iff fresh i).mp done)
  have last := walk.last_iff fresh i
  refine ⟨k, fun masked => free ?_, ?_, stride⟩
  · have further : ¬s.Beyond e k := fun beyond => s.not_masked_base (beyond.1 ▸ masked)
    rw [Last, bound_masked e masked, idx_within further, walk.masked k masked]
    rfl
  · exact selectedStride_eq walk.affine (fun j less => (last j).mp (below j less))
      (fun wraps => free ((last k).mpr wraps))

/-! ### The cycle of a walk -/

theorem noKill (i : AgIn C) : NoKill s i := by
  refine ⟨walk.harmless, ?_⟩
  rw [spillInData, walk.affine]
  rfl

/-- The address the counters hand to the output stage in a cycle. -/
theorem queue_next (running : s.config.done = false) (i : AgIn C) :
    s.queue ++ (if s.enable i then
        [{ pointer := s.pointer, last := s.done i, zero := false, kill := false }] else []) =
      (if s.memHs i then [s.memElem i] else []) ++ (s.next i).queue := by
  cases indirection : C.Indirection with
  | false =>
    simp [queue, enable, memHs, memValid, memElem, indirection, running]
  | true =>
    have taken : s.enable i = (s.spillInValid i && s.spillInReady i) := by
      rw [enable, indirection, if_pos rfl, spillInValid, walk.affine]
      rfl
    have element : s.spillInData i (s.indir.memLast (s.indirIn i) (s.spillInReady i)) =
        { pointer := s.pointer, last := s.done i, zero := false, kill := false } := by
      rw [spillInData, walk.affine]
      rfl
    rw [taken, ← element]
    exact (walk.noKill i).queue_next indirection

theorem fresh_of_enable (running : s.config.done = false) {i : AgIn C} (counts : s.enable i = true) :
    s.issued = false := by
  rw [enable, natitDone, walk.affine, running, Bool.or_false, if_neg Bool.false_ne_true] at counts
  rw [issued]
  split at counts
  · rename_i indirection
    rw [if_pos indirection]
    rw [Bool.and_eq_true, Bool.not_eq_true'] at counts
    exact counts.1
  · rename_i plain
    rw [if_neg plain]
    exact running

theorem index_next (i : AgIn C) (k : Fin C.NumLoops) :
    (s.next i).index k =
      if s.enable i = true ∧ ∀ j < k, s.loopLast i j = true then
        if s.loopLast i k then 0 else s.index k + 1
      else s.index k := by
  have ena : (s.enable i && s.loopEnabled i k) = true ↔
      s.enable i = true ∧ ∀ j < k, s.loopLast i j = true := by
    rw [Bool.and_eq_true, loopEnabled_iff]
  simp only [next, indexNext, (walk.noKill i).none, Bool.and_false, Bool.or_false, ffLoadClear]
  by_cases advances : (s.enable i && s.loopEnabled i k) = true
  · rw [if_pos (ena.mp advances), advances]
    simp
  · rw [if_neg fun both => advances (ena.mpr both)]
    rw [Bool.not_eq_true] at advances
    rw [advances]
    simp

theorem config_next (running : s.config.done = false) (i : AgIn C) :
    (s.next i).config = { s.config with done := s.memHs i && (s.memElem i).last } :=
  (walk.noKill i).config_next running

theorem masked_next (running : s.config.done = false) (i : AgIn C) (k : Fin C.NumLoops) :
    (s.next i).Masked k ↔ s.Masked k := by
  rw [Masked, Masked, walk.config_next running]

/-- While addresses are handed on, `natit_base_last_q` follows the base loop. -/
theorem baseLast_next (running : s.config.done = false) (indirection : C.Indirection = true)
    (i : AgIn C) :
    (s.next i).natitBaseLast = (!s.issued &&
      if s.enable i then s.index (base C) == s.regs.bound (base C) else s.natitBaseLast) := by
  simp only [next, natitBaseLastD, walk.natitBaseBound_eq, natitDone, running, issued, indirection,
    ffLoadClear, Bool.or_false, Bool.true_and, if_true]
  cases s.natitLastWordInflight <;> rfl

theorem indirection_of_word (fresh : s.issued = false) (word : e = true) :
    C.Indirection = true := by
  have extraword := walk.extraword fresh
  rw [word, extra, Bool.and_assoc, Bool.and_eq_true] at extraword
  exact extraword.1

theorem loopLast_base (fresh : s.issued = false) (i : AgIn C) (word : e = true) :
    s.loopLast i (base C) = s.natitBaseLast := by
  have extraword := (s.extra_eq i).symm.trans (walk.extraword fresh)
  rw [word, Bool.and_eq_true] at extraword
  rw [loopLast, if_pos rfl, if_pos extraword.1, if_pos extraword.2]

/-- A counter that advances without wrapping is below its bound, or takes the
extra reading next. -/
theorem lt_bound (fresh : s.issued = false) (i : AgIn C) {k : Fin C.NumLoops}
    (free : ¬s.loopLast i k = true) (normal : ¬(k = base C ∧ e = true)) :
    (s.index k).toNat < (s.regs.bound k).toNat := by
  have further : ¬s.Beyond e k := fun beyond =>
    normal ⟨beyond.1, (Bool.and_eq_true _ _ ▸ beyond.2).1⟩
  have counting : ¬Last (level e s k) := fun last => free ((walk.last_iff fresh i k).mp last)
  have below := Nat.lt_of_le_of_ne (walk.level_within k) counting
  rw [idx_within further] at below
  by_cases at_base : k = base C
  · subst at_base
    have clear : e = false := Bool.not_eq_true _ ▸ fun word => normal ⟨rfl, word⟩
    rwa [bound_base, clear] at below
  · by_cases masked : s.Masked k
    · rw [bound_masked e masked] at below
      exact absurd below (Nat.not_lt_zero _)
    · rwa [bound_upper e at_base masked] at below

/-- With an extra word the base loop marks its bound, and then wraps. -/
theorem mark_next (running : s.config.done = false) (word : e = true) {i : AgIn C}
    (counts : s.enable i = true) :
    (s.next i).natitBaseLast = true ↔
      s.natitBaseLast = false ∧ s.index (base C) = s.regs.bound (base C) := by
  have fresh := walk.fresh_of_enable running counts
  rw [walk.baseLast_next running (walk.indirection_of_word fresh word), fresh, if_pos counts,
    Bool.not_false, Bool.true_and, beq_iff_eq]
  refine ⟨fun same => ⟨?_, same⟩, And.right⟩
  rw [← Bool.not_eq_true]
  intro mark
  have index := walk.beyond (base C) ⟨rfl, by rw [word, mark]; rfl⟩
  rw [same] at index
  have zero := congrArg BitVec.toNat (left_eq_add.mp index)
  exact Nat.one_ne_zero ((BitVec.toNat_one C.index_pos).symm.trans zero)

theorem index_base_next (i : AgIn C) :
    (s.next i).index (base C) =
      if s.enable i then if s.loopLast i (base C) then 0 else s.index (base C) + 1
      else s.index (base C) := by
  have least : ∀ j < base C, s.loopLast i j = true := fun j less =>
    absurd less (Nat.not_lt_zero _)
  rw [walk.index_next]
  by_cases counts : s.enable i = true
  · rw [if_pos ⟨counts, least⟩, if_pos counts]
  · rw [if_neg fun both => counts both.1, if_neg counts]

section

variable (running : s.config.done = false)

include running

theorem settled_next (i : AgIn C)
    (all : (s.next i).issued = true) (k : Fin C.NumLoops) : (s.next i).index k = 0 := by
  rw [issued_next running, Bool.or_eq_true, Bool.and_eq_true] at all
  rw [walk.index_next]
  rcases all with before | ⟨counts, done⟩
  · have rests : ¬s.enable i = true := fun counts => by
      have fresh := walk.fresh_of_enable running counts
      rw [before] at fresh
      exact Bool.noConfusion fresh
    rw [if_neg fun both => rests both.1]
    exact walk.settled before k
  · have wraps := (AddrGen.done_iff s i).mp done
    rw [if_pos ⟨counts, fun j _ => wraps j⟩, if_pos (wraps k)]

theorem beyond_next (i : AgIn C) (k : Fin C.NumLoops)
    (further : (s.next i).Beyond e k) : (s.next i).index k = (s.next i).regs.bound k + 1 := by
  obtain ⟨rfl, flags⟩ := further
  rw [Bool.and_eq_true] at flags
  obtain ⟨word, mark⟩ := flags
  rw [regs_next running, walk.index_base_next]
  by_cases counts : s.enable i = true
  · have fresh := walk.fresh_of_enable running counts
    obtain ⟨clear, same⟩ := (walk.mark_next running word counts).mp mark
    rw [if_pos counts, walk.loopLast_base fresh i word, clear, if_neg Bool.false_ne_true, same]
  · have indirection : C.Indirection = true := by
      rw [next, Bool.and_eq_true] at mark
      exact mark.1
    rw [walk.baseLast_next running indirection, if_neg counts, Bool.and_eq_true] at mark
    rw [if_neg counts]
    exact walk.beyond (base C) ⟨rfl, by rw [word, mark.2]; rfl⟩

/-- A counter that advances without wrapping has room. -/
theorem lt_bound_next {i : AgIn C} {k : Fin C.NumLoops}
    (counts : s.enable i = true) (free : ¬s.loopLast i k = true)
    (further : ¬(s.next i).Beyond e k) : (s.index k).toNat < (s.regs.bound k).toNat := by
  have fresh := walk.fresh_of_enable running counts
  by_cases special : k = base C ∧ e = true
  · obtain ⟨rfl, word⟩ := special
    rw [walk.loopLast_base fresh i word] at free
    have clear : s.natitBaseLast = false := Bool.not_eq_true _ ▸ free
    have short : ¬s.index (base C) = s.regs.bound (base C) := fun same => further ⟨rfl, by
      rw [(walk.mark_next running word counts).mpr ⟨clear, same⟩, word]
      rfl⟩
    have below := walk.within (base C) s.not_masked_base fun beyond =>
      free (Bool.and_eq_true _ _ ▸ beyond.2).2
    exact Nat.lt_of_le_of_ne below fun same => short (BitVec.eq_of_toNat_eq same)
  · exact walk.lt_bound fresh i free special

theorem within_next (i : AgIn C) (k : Fin C.NumLoops)
    (used : ¬s.Masked k) (further : ¬(s.next i).Beyond e k) :
    ((s.next i).index k).toNat ≤ (s.regs.bound k).toNat := by
  rw [walk.index_next]
  by_cases advances : s.enable i = true ∧ ∀ j < k, s.loopLast i j = true
  · rw [if_pos advances]
    by_cases wraps : s.loopLast i k = true
    · rw [if_pos wraps]
      exact Nat.zero_le _
    · have room := walk.lt_bound_next running advances.1 wraps further
      have fits := (s.regs.bound k).isLt
      have one : (1 : BitVec C.IndexWidth).toNat = 1 := BitVec.toNat_one C.index_pos
      rw [if_neg wraps, BitVec.toNat_add, one, Nat.mod_eq_of_lt (by omega)]
      exact room
  · rw [if_neg advances]
    by_cases all : s.issued = true
    · rw [walk.settled all]
      exact Nat.zero_le _
    · refine walk.within k used fun beyond => ?_
      obtain ⟨rfl, flags⟩ := beyond
      rw [Bool.and_eq_true] at flags
      have fresh : s.issued = false := Bool.not_eq_true _ ▸ all
      have rests : ¬s.enable i = true := fun counts =>
        advances ⟨counts, fun j less => absurd less (Nat.not_lt_zero _)⟩
      refine further ⟨rfl, ?_⟩
      rw [walk.baseLast_next running (walk.indirection_of_word fresh flags.1), fresh, if_neg rests,
        flags.1, flags.2]
      rfl

theorem idx_next {i : AgIn C} (counts : s.enable i = true) (k : Fin C.NumLoops) :
    (level e (s.next i) k).idx = if ∀ j < k, Last (level e s j) then
        if Last (level e s k) then 0 else (level e s k).idx + 1 else (level e s k).idx := by
  have fresh := walk.fresh_of_enable running counts
  have index := walk.index_next i k
  simp only [counts, true_and, ← walk.last_iff fresh] at index
  by_cases below : ∀ j < k, Last (level e s j)
  · rw [if_pos below] at index ⊢
    by_cases last : Last (level e s k)
    · rw [if_pos last] at index ⊢
      have further : ¬(s.next i).Beyond e k := by
        rintro ⟨rfl, flags⟩
        rw [Bool.and_eq_true] at flags
        obtain ⟨clear, _⟩ := (walk.mark_next running flags.1 counts).mp flags.2
        have wraps := (walk.last_iff fresh i _).mp last
        rw [walk.loopLast_base fresh i flags.1, clear] at wraps
        exact Bool.noConfusion wraps
      rw [idx_within further, index]
      rfl
    · rw [if_neg last] at index ⊢
      have free := fun wraps => last ((walk.last_iff fresh i k).mpr wraps)
      have before : ¬s.Beyond e k := by
        rintro ⟨rfl, flags⟩
        rw [Bool.and_eq_true] at flags
        exact free ((walk.loopLast_base fresh i flags.1).trans flags.2)
      rw [idx_within before]
      by_cases further : (s.next i).Beyond e k
      · obtain ⟨rfl, flags⟩ := id further
        rw [Bool.and_eq_true] at flags
        obtain ⟨_, same⟩ := (walk.mark_next running flags.1 counts).mp flags.2
        rw [idx_beyond further, regs_next running, same]
      · have room := walk.lt_bound_next running counts free further
        have fits := (s.regs.bound k).isLt
        have one : (1 : BitVec C.IndexWidth).toNat = 1 := BitVec.toNat_one C.index_pos
        rw [idx_within further, index, BitVec.toNat_add, one, Nat.mod_eq_of_lt (by omega)]
  · rw [if_neg below] at index ⊢
    have upper : k ≠ base C := by
      rintro rfl
      exact below fun j less => absurd less (Nat.not_lt_zero _)
    rw [idx_within fun beyond => upper beyond.1, idx_within fun beyond => upper beyond.1, index]

/-- **A step of the counters is a step of the odometer.** -/
theorem levels_next {i : AgIn C} (counts : s.enable i = true) :
    levels e (s.next i) = advance (levels e s) := by
  rw [levels, levels, advance_ofFn]
  congr 1
  funext k
  have idx := walk.idx_next running counts k
  have bound : (level e (s.next i) k).bound = (level e s k).bound := by
    simp only [level, regs_next running, walk.masked_next running]
  have stride : (level e (s.next i) k).stride = (level e s k).stride := by
    simp only [level, regs_next running]
  by_cases below : ∀ j < k, Last (level e s j)
  · rw [if_pos below] at idx ⊢
    exact Level.ext idx bound stride
  · rw [if_neg below] at idx ⊢
    exact Level.ext idx bound stride

theorem extra_next (i : AgIn C) (fresh : (s.next i).issued = false) : (s.next i).extra = e := by
  rw [issued_next running, Bool.or_eq_false_iff] at fresh
  obtain ⟨before, counting⟩ := fresh
  have offset : (s.next i).pointer.setWidth C.BytecntWidth = s.pointer.setWidth C.BytecntWidth := by
    have register : (s.next i).pointer = s.pointerNext i := rfl
    have stays : ¬s.config.done = true := Bool.not_eq_true _ ▸ running
    rw [register, pointerNext, if_neg stays]
    by_cases counts : s.enable i = true
    · rw [counts, Bool.true_and] at counting
      obtain ⟨k, used, stride, _⟩ := walk.selected_eq before i (Bool.not_eq_true _ ▸ counting)
      rw [if_pos counts, stride, BitVec.setWidth_add _ _ C.bytecnt_le, walk.aligned k used]
      exact BitVec.add_zero _
    · rw [if_neg counts]
  rw [extra, regs_next running, offset]
  exact walk.extraword before

theorem harmless_next (i : AgIn C) : ∀ x ∈ (s.next i).queue, x.kill = false := by
  intro x member
  have law := walk.queue_next running i
  have held : x ∈ s.queue ++ (if s.enable i then
      [{ pointer := s.pointer, last := s.done i, zero := false, kill := false }] else []) := by
    rw [law]
    exact List.mem_append_right _ member
  rcases List.mem_append.mp held with old | new
  · exact walk.harmless x old
  · split at new
    · rw [List.mem_singleton.mp new]
    · exact absurd new List.not_mem_nil

/-- **A walk goes on.** -/
theorem walk_next (i : AgIn C) : Walk e (s.next i) where
  affine := by
    rw [walk.config_next running]
    exact walk.affine
  extraword := walk.extra_next running i
  aligned k used := by
    rw [walk.masked_next running] at used
    rw [regs_next running]
    exact walk.aligned k used
  masked k masked := by
    rw [walk.masked_next running] at masked
    rw [walk.index_next]
    have upper : k ≠ base C := fun at_base => s.not_masked_base (at_base ▸ masked)
    have beyond : s.config.dims.toNat < k.val := masked
    have wraps : s.loopLast i k = true := by
      rw [loopLast, if_neg upper, decide_eq_true beyond, Bool.or_true, Bool.or_true]
    rw [if_pos wraps, walk.masked k masked, ite_self]
  beyond := walk.beyond_next running i
  within k used further := by
    rw [walk.masked_next running] at used
    rw [regs_next running]
    exact walk.within_next running i k used further
  settled := walk.settled_next running i
  harmless := walk.harmless_next running i

theorem levels_rest (fresh : s.issued = false) {i : AgIn C}
    (rests : s.enable i = false) : levels e (s.next i) = levels e s := by
  rw [levels, levels]
  congr 1
  funext k
  have index : (s.next i).index k = s.index k := by
    rw [walk.index_next, rests, if_neg fun both => Bool.false_ne_true both.1]
  have beyond : (s.next i).Beyond e k ↔ s.Beyond e k := by
    refine and_congr_right fun _ => ?_
    cases word : e with
    | false => exact Iff.rfl
    | true =>
      rw [walk.baseLast_next running (walk.indirection_of_word fresh word), fresh, rests]
      exact Iff.rfl
  simp only [level, index, beyond, regs_next running, walk.masked_next running]

/-- What a cycle takes off the addresses to come. -/
theorem toCome_next (i : AgIn C) :
    toCome e s = (if s.enable i then [(s.pointer, s.done i)] else []) ++ toCome e (s.next i) := by
  have register : (s.next i).pointer = s.pointerNext i := rfl
  have stays : ¬s.config.done = true := Bool.not_eq_true _ ▸ running
  rw [pointerNext, if_neg stays] at register
  rw [toCome, toCome, issued_next running]
  by_cases counts : s.enable i = true
  · have fresh := walk.fresh_of_enable running counts
    rw [if_pos counts] at register ⊢
    rw [fresh, counts, Bool.false_or, Bool.true_and, if_neg Bool.false_ne_true]
    by_cases done : s.done i = true
    · rw [if_pos done, remaining_done ((walk.done_iff fresh i).mpr done), done]
      rfl
    · obtain ⟨k, _, stride, picked⟩ := walk.selected_eq fresh i done
      obtain ⟨t, pick, rest⟩ := remaining_advance walk.levels_within
        (fun all => done ((walk.done_iff fresh i).mp all)) 0 s.pointer
      rw [if_neg done, rest, walk.levels_next running counts, register, stride, flagLast,
        Option.some.inj (picked.symm.trans pick), add_zero, remaining_head]
      simp [done]
  · rw [if_neg counts] at register ⊢
    rw [Bool.not_eq_true] at counts
    rw [counts, Bool.false_and, Bool.or_false, List.nil_append]
    by_cases all : s.issued = true
    · rw [if_pos all, if_pos all]
    · rw [if_neg all, if_neg all, register,
        walk.levels_rest running (Bool.not_eq_true _ ▸ all) counts]

/-- **Conservation.**  What the output stage holds and what is to come leave
through the port, in order. -/
theorem conserve (i : AgIn C) : s.queue.map mark ++ toCome e s =
      (if s.memHs i then [mark (s.memElem i)] else []) ++
        ((s.next i).queue.map mark ++ toCome e (s.next i)) := by
  have law := congrArg (List.map mark) (walk.queue_next running i)
  rw [List.map_append, List.map_append, apply_ite (List.map mark), apply_ite (List.map mark)] at law
  rw [walk.toCome_next running i, ← List.append_assoc, ← List.append_assoc]
  exact congrArg (· ++ toCome e (s.next i)) law

end

end Walk

/-! ## Whole runs -/

/-- The addresses a run has shown on the memory port. -/
def addresses (past : List (Obs C)) : List (BitVec C.PointerWidth) :=
  (shown past).map OutElem.pointer

/-- From `s` on, whatever the inputs: up to the end of the job the port shows the
expected addresses in order, at its end exactly these, with all indices back at
zero; and the job does end if the memory keeps being ready. -/
def StreamsExactly (s : AddrGen P) (expected : List (BitVec C.PointerWidth)) : Prop :=
  ∀ u : Nat → AgIn C,
    (∀ n, (∀ m < n, ((machine P).stateAt s u m).config.done = false) →
      addresses ((machine P).history s u n) <+: expected ∧
      (((machine P).stateAt s u n).config.done = true →
        addresses ((machine P).history s u n) = expected ∧
          ∀ k, ((machine P).stateAt s u n).index k = 0)) ∧
    ((∀ n, ∃ m, n ≤ m ∧ (u m).memReady = true) →
      ∃ n, ((machine P).stateAt s u n).config.done = true)

/-- The state of a walk after the elements `sent`: the job is done when the last
element has left. -/
structure Walked (e : Bool) (total : List (BitVec C.PointerWidth)) (sent : List (OutElem C))
    (s : AddrGen P) : Prop where
  walk : Walk e s
  whole : sent.map mark ++ (s.queue.map mark ++ toCome e s) = flagLast total
  running : s.config.done = false → ∀ x ∈ sent, x.last = false
  ended : s.config.done = true → ∃ before x, sent = before ++ [x] ∧ x.last = true

section

variable {e : Bool} {total : List (BitVec C.PointerWidth)}

theorem Walked.next {sent : List (OutElem C)}
    {s : AddrGen P} (walked : Walked e total sent s) (running : s.config.done = false)
    (i : AgIn C) : Walked e total (sent ++ if s.memHs i then [s.memElem i] else []) (s.next i) := by
  have walk := walked.walk
  have config := walk.config_next running i
  refine ⟨walk.walk_next running i, ?_, ?_, ?_⟩
  · rw [← walked.whole, walk.conserve running i, List.map_append, apply_ite (List.map mark),
      List.append_assoc]
    rfl
  · intro goes x member
    rw [config] at goes
    rcases List.mem_append.mp member with old | new
    · exact walked.running running x old
    · cases hs : s.memHs i with
      | true =>
        rw [hs, Bool.true_and] at goes
        rw [hs, if_pos rfl] at new
        rw [List.mem_singleton.mp new]
        exact goes
      | false =>
        rw [hs, if_neg Bool.false_ne_true] at new
        exact absurd new List.not_mem_nil
  · intro ends
    rw [config, Bool.and_eq_true] at ends
    exact ⟨sent, s.memElem i, by rw [ends.1, if_pos rfl], ends.2⟩

theorem walked_run {s : AddrGen P} (start : Walked e total [] s) (u : Nat → AgIn C) (n : Nat)
    (running : ∀ m < n, ((machine P).stateAt s u m).config.done = false) :
    Walked e total (shown ((machine P).history s u n)) ((machine P).stateAt s u n) := by
  induction n with
  | zero => exact start
  | succ n ih =>
    have before := ih fun m less => running m (Nat.lt_succ_of_lt less)
    rw [Machine.history, shown_concat]
    exact before.next (running n (Nat.lt_succ_self n)) (u n)

section

variable {sent : List (OutElem C)} {s : AddrGen P} (walked : Walked e total sent s)

include walked

theorem Walked.front : sent.map OutElem.pointer <+: total := by
  have front : sent.map mark <+: flagLast total := walked.whole ▸ List.prefix_append _ _
  have pointers := front.map Prod.fst
  rwa [map_fst_flagLast, List.map_map] at pointers

/-- While the job runs, something is still to leave. -/
theorem Walked.unfinished (nonempty : total ≠ []) (running : s.config.done = false) :
    ¬(s.queue = [] ∧ s.issued = true) := by
  rintro ⟨empty, all⟩
  have whole := walked.whole
  rw [empty, toCome, if_pos all, List.map_nil, List.append_nil, List.append_nil] at whole
  obtain ⟨p, flagged⟩ := exists_flagged nonempty
  rw [← whole, List.mem_map] at flagged
  obtain ⟨x, member, marks⟩ := flagged
  have flag : x.last = true := congrArg Prod.snd marks
  rw [walked.running running x member] at flag
  exact Bool.noConfusion flag

/-- At the end of the job everything has left and the counters are back. -/
theorem Walked.at_end (done : s.config.done = true) :
    sent.map OutElem.pointer = total ∧ ∀ k, s.index k = 0 := by
  obtain ⟨before, x, split, flag⟩ := walked.ended done
  have whole := walked.whole
  have nothing : s.queue.map mark ++ toCome e s = [] := by
    rw [split, List.map_append, List.append_assoc] at whole
    exact nil_of_flagged whole flag
  have all : s.issued = true := by
    by_contra fresh
    have rest := (List.append_eq_nil_iff.mp nothing).2
    rw [toCome, if_neg fresh, remaining_head, flagLast] at rest
    exact List.cons_ne_nil _ _ rest
  refine ⟨?_, walked.walk.settled all⟩
  rw [nothing, List.append_nil] at whole
  rw [← map_fst_flagLast total, ← whole, List.map_map]
  rfl

end

end

/-! ### Progress -/

/-- An address counts twice before the output stage and once in it. -/
def pending (e : Bool) (s : AddrGen P) : Nat := 2 * (toCome e s).length + s.queue.length

section

variable {e : Bool} {s : AddrGen P} (walk : Walk e s) (running : s.config.done = false)

include walk running

theorem Walk.pending_next (i : AgIn C) :
    pending e (s.next i) + (s.enable i).toNat + (s.memHs i).toNat = pending e s := by
  have queue := congrArg List.length (walk.queue_next running i)
  have rest := congrArg List.length (walk.toCome_next running i)
  rw [List.length_append, List.length_append] at queue
  rw [List.length_append] at rest
  have counts : ∀ (b : Bool) {α : Type} (x : α), (if b then [x] else []).length = b.toNat := by
    intro b α x
    cases b <;> rfl
  rw [counts, counts] at queue
  rw [counts] at rest
  rw [pending, pending]
  omega

/-- With the memory ready, an address enters or leaves the output stage. -/
theorem Walk.moves
    {i : AgIn C} (ready : i.memReady = true) (unfinished : ¬(s.queue = [] ∧ s.issued = true)) :
    s.enable i = true ∨ s.memHs i = true := by
  cases indirection : C.Indirection with
  | false =>
    refine Or.inl ?_
    simp [enable, indirection, running, ready]
  | true =>
    rw [queue, issued, indirection, if_pos rfl, if_pos rfl] at unfinished
    have hs : s.memHs i = P.outSpill.valid s.spill (s.spillInValid i) := by
      rw [← (walk.noKill i).memPtrHs_eq, memPtrHs, indirection, if_pos rfl, spillOutReady, ready,
        Bool.true_or, Bool.and_true]
      rfl
    have ena : s.enable i = (!s.natitDone && s.spillInReady i) := by
      rw [enable, indirection, if_pos rfl, walk.affine, if_neg Bool.false_ne_true]
    rw [P.outSpill.lawful.valid_eq] at hs
    by_cases empty : P.outSpill.contents s.spill = []
    · have fresh : s.natitDone = false := by
        rw [natitDone, running, Bool.or_false, ← Bool.not_eq_true]
        exact fun all => unfinished ⟨empty, all⟩
      cases bypass : !C.IndirOutSpill with
      | true =>
        -- a wire hands the address straight to the memory
        refine Or.inr ?_
        rw [hs, spillInValid, walk.affine, if_neg Bool.false_ne_true, fresh, Bool.not_false,
          Bool.and_true, Bool.or_eq_true]
        exact Or.inr bypass
      | false =>
        -- an empty register takes it
        refine Or.inl ?_
        rw [ena, fresh, spillInReady, P.outSpill.lawful.accepts bypass _ _ empty]
        rfl
    · refine Or.inr ?_
      rw [hs, Bool.or_eq_true, Bool.not_eq_true', List.isEmpty_eq_false_iff]
      exact Or.inl empty

/-- **A walk visits its addresses.** -/
theorem Walk.streams (fresh : s.issued = false) (empty : s.queue = []) :
    StreamsExactly s (remaining (levels e s) 0 s.pointer) := by
  have start : Walked e (remaining (levels e s) 0 s.pointer) [] s := by
    refine ⟨walk, ?_, fun _ _ member => absurd member List.not_mem_nil, fun done => ?_⟩
    · rw [empty, toCome, fresh]
      rfl
    · rw [running] at done
      exact Bool.noConfusion done
  have nonempty : remaining (levels e s) 0 s.pointer ≠ [] := by
    rw [remaining_head]
    exact List.cons_ne_nil _ _
  intro u
  refine ⟨fun n before => ?_, fun recurs => ?_⟩
  · have walked := walked_run start u n before
    exact ⟨walked.front, walked.at_end⟩
  · have step : ∀ n, (∀ m ≤ n, ¬((machine P).stateAt s u m).config.done = true) →
        ∃ sent, Walked e (remaining (levels e s) 0 s.pointer) sent ((machine P).stateAt s u n) ∧
          ((machine P).stateAt s u n).config.done = false := by
      intro n missed
      have runs : ∀ m ≤ n, ((machine P).stateAt s u m).config.done = false := fun m upto =>
        Bool.not_eq_true _ ▸ missed m upto
      exact ⟨_, walked_run start u n fun m less => runs m (Nat.le_of_lt less),
        runs n (Nat.le_refl n)⟩
    refine (machine P).exists_goal s u (fun s => s.config.done = true) (fun i => i.memReady = true)
      (pending e) (fun n missed => ?_) (fun n missed ready => ?_) recurs
    · obtain ⟨sent, walked, here⟩ := step n missed
      have count := walked.walk.pending_next here (u n)
      have next : (machine P).stateAt s u (n + 1) = ((machine P).stateAt s u n).next (u n) := rfl
      rw [next]
      omega
    · obtain ⟨sent, walked, here⟩ := step n missed
      have count := walked.walk.pending_next here (u n)
      have next : (machine P).stateAt s u (n + 1) = ((machine P).stateAt s u n).next (u n) := rfl
      rw [next]
      rcases walked.walk.moves here ready (walked.unfinished nonempty here) with counts | hs
      · rw [counts, Bool.toNat_true] at count
        omega
      · rw [hs, Bool.toNat_true] at count
        omega

end

end SnitchCluster.Ssr.AddrGen
