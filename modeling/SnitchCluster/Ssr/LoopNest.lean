/-
# Ssr.LoopNest -- an affine stream implements the programmed loop nest

`ssr.h` hands the data mover differences of strides, computed with wrapping
arithmetic: from each stride the distance walked by the loops inside is
subtracted.  Read as odometer levels these are the loops again, so a launch of an
idle data mover walks the nest of the absolute strides.

It walks one sweep too many when `natit_extraword` is set.  That wire is meant for
index arrays that straddle words, but it looks at the byte offsets of the pointer
and of the bound in affine jobs too.
-/
import Mathlib.Algebra.BigOperators.Fin
import Mathlib.Algebra.Order.BigOperators.Ring.Finset
import SnitchCluster.Ssr.Walk

namespace SnitchCluster.Ssr

open Theory Theory.Odometer

variable {C : Cfg}

/-! ## The loop functions as one -/

/-- `snrt_ssr_loop_1d` to `snrt_ssr_loop_4d`, by the loops given, the innermost
first. -/
def snrtSsrLoop : List (BitVec 32 × BitVec 32) → List CfgWrite
  | [(b0, s0)] => snrt_ssr_loop_1d b0 s0
  | [(b0, s0), (b1, s1)] => snrt_ssr_loop_2d b0 b1 s0 s1
  | [(b0, s0), (b1, s1), (b2, s2)] => snrt_ssr_loop_3d b0 b1 b2 s0 s1 s2
  | [(b0, s0), (b1, s1), (b2, s2), (b3, s3)] => snrt_ssr_loop_4d b0 b1 b2 b3 s0 s1 s2 s3
  | _ => []

/-- `snrt_ssr_read` or `snrt_ssr_write`. -/
def snrtSsrLaunch (write : Bool) (dim : Fin 4) (ptr : BitVec 32) : CfgWrite :=
  if write then snrt_ssr_write dim ptr else snrt_ssr_read dim ptr

def boundWrites : Nat → List (BitVec 32 × BitVec 32) → List CfgWrite
  | _, [] => []
  | k, (b, _) :: outer => writeSsrCfg (SNRT_SSR_REG_BOUNDS + k) (b - 1) :: boundWrites (k + 1) outer

/-- `a` is the distance the loops inside walk. -/
def strideWrites : Nat → BitVec 32 → List (BitVec 32 × BitVec 32) → List CfgWrite
  | _, _, [] => []
  | k, a, (b, s) :: outer =>
    writeSsrCfg (SNRT_SSR_REG_STRIDES + k) (s - a) ::
      strideWrites (k + 1) (a + s * (b - 1)) outer

theorem snrtSsrLoop_eq (loops : List (BitVec 32 × BitVec 32)) (some : loops ≠ [])
    (most : loops.length ≤ 4) :
    snrtSsrLoop loops = boundWrites 0 loops ++ strideWrites 0 0 loops := by
  match loops, some, most with
  | [_], _, _ => rfl
  | [_, _], _, _ => rfl
  | [_, _, _], _, _ => rfl
  | [_, _, _, _], _, _ => rfl

/-! ## What the writes leave in the registers -/

theorem toNat_word {k : Nat} (small : k < 32) : (BitVec.ofNat 5 k).toNat = k := by
  rw [BitVec.toNat_ofNat]
  exact Nat.mod_eq_of_lt small

section

variable (r : JobRegs C) {k : Nat} (small : k < 4) (v : BitVec 32)

include r small v

theorem write_bound (j : Fin C.NumLoops) :
    (r.write (BitVec.ofNat 5 (SNRT_SSR_REG_BOUNDS + k)) v).bound j =
      if j.val = k then v.setWidth _ else r.bound j := by
  have word : (BitVec.ofNat 5 (SNRT_SSR_REG_BOUNDS + k)).toNat = 2 + k := toNat_word (by
    simp only [SNRT_SSR_REG_BOUNDS]
    omega)
  simp only [JobRegs.write, word, Nat.add_left_cancel_iff, eq_comm]

theorem write_stride (j : Fin C.NumLoops) :
    (r.write (BitVec.ofNat 5 (SNRT_SSR_REG_STRIDES + k)) v).stride j =
      if j.val = k then (wordAddrMask C v).setWidth _ else r.stride j := by
  have word : (BitVec.ofNat 5 (SNRT_SSR_REG_STRIDES + k)).toNat = 6 + k := toNat_word (by
    simp only [SNRT_SSR_REG_STRIDES]
    omega)
  simp only [JobRegs.write, word, Nat.add_left_cancel_iff, eq_comm]

theorem write_stride_bound :
    (r.write (BitVec.ofNat 5 (SNRT_SSR_REG_STRIDES + k)) v).bound = r.bound := by
  have word : (BitVec.ofNat 5 (SNRT_SSR_REG_STRIDES + k)).toNat = 6 + k := toNat_word (by
    simp only [SNRT_SSR_REG_STRIDES]
    omega)
  funext j
  have below := j.isLt
  have most := C.loops_le
  have other : ¬6 + k = 2 + j.val := by omega
  simp only [JobRegs.write, word, if_neg other]

end

/-- A loop as the address generator sees it. -/
def absolute (C : Cfg) (loop : BitVec 32 × BitVec 32) : Nat × BitVec C.PointerWidth :=
  (loop.1.toNat, loop.2.setWidth _)

theorem bounds_written (loops : List (BitVec 32 × BitVec 32)) (k : Nat)
    (room : k + loops.length ≤ 4) (r : JobRegs C) (j : Fin C.NumLoops) :
    (j.val < k → (r.writes (boundWrites k loops)).bound j = r.bound j) ∧
      ∀ m loop, loops[m]? = some loop → j.val = k + m →
        (r.writes (boundWrites k loops)).bound j = (loop.1 - 1).setWidth _ := by
  induction loops generalizing k r with
  | nil => exact ⟨fun _ => rfl, fun m loop found => by simp at found⟩
  | cons loop outer ih =>
    rw [List.length_cons] at room
    have here := write_bound r (show k < 4 by omega) (loop.1 - 1) j
    obtain ⟨below, above⟩ := ih (k + 1) (by omega)
      (r.write (BitVec.ofNat 5 (SNRT_SSR_REG_BOUNDS + k)) (loop.1 - 1))
    refine ⟨fun less => ?_, fun m found at_m position => ?_⟩
    · rw [if_neg (by omega)] at here
      exact (below (by omega)).trans here
    · cases m with
      | zero =>
        obtain rfl : loop = found := by simpa using at_m
        rw [if_pos (by omega)] at here
        exact (below (by omega)).trans here
      | succ m => exact above m found (by simpa using at_m) (by omega)

theorem bound_of_strideWrites (loops : List (BitVec 32 × BitVec 32)) (k : Nat) (a : BitVec 32)
    (room : k + loops.length ≤ 4) (r : JobRegs C) :
    (r.writes (strideWrites k a loops)).bound = r.bound := by
  induction loops generalizing k a r with
  | nil => rfl
  | cons loop outer ih =>
    rw [List.length_cons] at room
    exact (ih (k + 1) _ (by omega) _).trans (write_stride_bound r (by omega) _)

/-! ## Strides as differences -/

theorem setWidth_sub {v w : Nat} (narrower : v ≤ w) (x y : BitVec w) :
    (x - y).setWidth v = x.setWidth v - y.setWidth v := by
  rw [eq_sub_iff_add_eq, ← BitVec.setWidth_add _ _ narrower, BitVec.sub_add_cancel]

theorem toNat_pred {b : BitVec 32} (positive : 1 ≤ b.toNat) : (b - 1).toNat = b.toNat - 1 := by
  have one : (1 : BitVec 32).toNat = 1 := rfl
  rw [BitVec.toNat_sub_of_le (by rw [BitVec.le_def, one]; exact positive), one]

/-- The distance a loop walks, in the width of the pointer. -/
theorem setWidth_walked (a : BitVec 32) {b : BitVec 32} (positive : 1 ≤ b.toNat) (s : BitVec 32) :
    (a + s * (b - 1)).setWidth C.PointerWidth =
      a.setWidth C.PointerWidth + (b.toNat - 1) • s.setWidth C.PointerWidth := by
  have times : ∀ (n : Nat) (x : BitVec C.PointerWidth), n • x = x * BitVec.ofNat _ n := by
    intro n x
    rw [mul_comm]
    rfl
  rw [times, ← toNat_pred positive, BitVec.ofNat_toNat, BitVec.setWidth_add _ _ C.pointer_le,
    BitVec.setWidth_mul _ _ C.pointer_le]

/-- A multiple of the word size. -/
def WordAligned (C : Cfg) (x : BitVec 32) : Prop := x.setWidth C.BytecntWidth = 0

instance (C : Cfg) (x : BitVec 32) : Decidable (WordAligned C x) :=
  inferInstanceAs (Decidable (_ = _))

theorem bytecnt_le_word (C : Cfg) : C.BytecntWidth ≤ 32 :=
  Nat.le_trans C.bytecnt_le C.pointer_le

theorem WordAligned.sub {x y : BitVec 32} (hx : WordAligned C x) (hy : WordAligned C y) :
    WordAligned C (x - y) := by
  rw [WordAligned, setWidth_sub (bytecnt_le_word C), show x.setWidth _ = 0 from hx,
    show y.setWidth _ = 0 from hy, sub_zero]

theorem WordAligned.walked {a s : BitVec 32} (ha : WordAligned C a) (hs : WordAligned C s)
    (n : BitVec 32) : WordAligned C (a + s * n) := by
  rw [WordAligned, BitVec.setWidth_add _ _ (bytecnt_le_word C),
    BitVec.setWidth_mul _ _ (bytecnt_le_word C), show a.setWidth _ = 0 from ha,
    show s.setWidth _ = 0 from hs, zero_mul, add_zero]

theorem wordAddrMask_aligned {x : BitVec 32} (aligned : WordAligned C x) :
    wordAddrMask C x = x := by
  refine BitVec.eq_of_getLsbD_eq fun k below => ?_
  have low := congrArg (fun y => y.getLsbD k) aligned
  rw [wordAddrMask, BitVec.getLsbD_and, BitVec.getLsbD_shiftLeft]
  by_cases offset : k < C.BytecntWidth
  · have clear : x.getLsbD k = false := by simpa [BitVec.getLsbD_setWidth, offset] using low
    rw [clear, Bool.false_and]
  · rw [BitVec.getLsbD_allOnes, decide_eq_true below, decide_eq_false offset,
      decide_eq_true (Nat.sub_lt_of_lt below), Bool.not_false, Bool.and_true, Bool.and_true,
      Bool.and_true]

theorem strides_written (loops : List (BitVec 32 × BitVec 32)) (k : Nat) (a : BitVec 32)
    (room : k + loops.length ≤ 4) (positive : ∀ loop ∈ loops, 1 ≤ loop.1.toNat)
    (aligned : ∀ loop ∈ loops, WordAligned C loop.2) (walked : WordAligned C a)
    (r : JobRegs C) (j : Fin C.NumLoops) :
    (j.val < k → (r.writes (strideWrites k a loops)).stride j = r.stride j) ∧
      ∀ m l, (encode (loops.map (absolute C)) (a.setWidth _))[m]? = some l → j.val = k + m →
        (r.writes (strideWrites k a loops)).stride j = l.stride ∧
          l.stride.setWidth C.BytecntWidth = 0 := by
  induction loops generalizing k a r with
  | nil => exact ⟨fun _ => rfl, fun m l found => by simp [encode] at found⟩
  | cons loop outer ih =>
    obtain ⟨b, s⟩ := loop
    rw [List.length_cons] at room
    rw [List.forall_mem_cons] at positive aligned
    have here := write_stride r (show k < 4 by omega) (s - a) j
    have next := walked.walked aligned.1 (b - 1)
    rw [wordAddrMask_aligned (aligned.1.sub walked)] at here
    obtain ⟨below, above⟩ := ih (k + 1) (a + s * (b - 1)) (by omega) positive.2 aligned.2 next
      (r.write (BitVec.ofNat 5 (SNRT_SSR_REG_STRIDES + k)) (s - a))
    refine ⟨fun less => ?_, fun m l at_m position => ?_⟩
    · rw [if_neg (by omega)] at here
      exact (below (by omega)).trans here
    · cases m with
      | zero =>
        simp only [List.map_cons, absolute, encode, List.getElem?_cons_zero,
          Option.some.injEq] at at_m
        rw [if_pos (by omega), setWidth_sub C.pointer_le] at here
        subst at_m
        refine ⟨(below (by omega)).trans here, ?_⟩
        rw [← setWidth_sub C.pointer_le, BitVec.setWidth_setWidth_of_le _ C.bytecnt_le]
        exact aligned.1.sub walked
      | succ m =>
        rw [setWidth_walked a positive.1] at above
        exact above m l (by simpa [absolute, encode] using at_m) (by omega)

theorem encode_idx_bound (ls : List (BitVec 32 × BitVec 32)) (walked : BitVec C.PointerWidth)
    {m : Nat} {l : Level (BitVec C.PointerWidth)}
    (at_m : (encode (ls.map (absolute C)) walked)[m]? = some l) :
    l.idx = 0 ∧ ∃ loop, ls[m]? = some loop ∧ l.bound = loop.1.toNat - 1 := by
  induction ls generalizing walked m with
  | nil => simp [encode] at at_m
  | cons loop outer ih =>
    cases m with
    | zero =>
      simp only [List.map_cons, absolute, encode, List.getElem?_cons_zero,
        Option.some.injEq] at at_m
      subst at_m
      exact ⟨rfl, loop, rfl, rfl⟩
    | succ m => exact ih _ (by simpa [absolute, encode] using at_m)

/-- The words the loop functions write. -/
theorem word_of_boundWrites (loops : List (BitVec 32 × BitVec 32)) (k : Nat)
    (room : k + loops.length ≤ 4) :
    ∀ w ∈ boundWrites k loops, 2 ≤ w.1.toNat ∧ w.1.toNat < 10 := by
  induction loops generalizing k with
  | nil => simp [boundWrites]
  | cons loop outer ih =>
    rw [List.length_cons] at room
    rw [boundWrites, List.forall_mem_cons]
    refine ⟨?_, ih (k + 1) (by omega)⟩
    have word : (BitVec.ofNat 5 (SNRT_SSR_REG_BOUNDS + k)).toNat = 2 + k := toNat_word (by
      simp only [SNRT_SSR_REG_BOUNDS]
      omega)
    rw [writeSsrCfg, word]
    omega

theorem word_of_strideWrites (loops : List (BitVec 32 × BitVec 32)) (k : Nat) (a : BitVec 32)
    (room : k + loops.length ≤ 4) :
    ∀ w ∈ strideWrites k a loops, 2 ≤ w.1.toNat ∧ w.1.toNat < 10 := by
  induction loops generalizing k a with
  | nil => simp [strideWrites]
  | cons loop outer ih =>
    rw [List.length_cons] at room
    rw [strideWrites, List.forall_mem_cons]
    refine ⟨?_, ih (k + 1) _ (by omega)⟩
    have word : (BitVec.ofNat 5 (SNRT_SSR_REG_STRIDES + k)).toNat = 6 + k := toNat_word (by
      simp only [SNRT_SSR_REG_STRIDES]
      omega)
    rw [writeSsrCfg, word]
    omega

theorem idxSize_writes (ws : List CfgWrite) (words : ∀ w ∈ ws, 2 ≤ w.1.toNat ∧ w.1.toNat < 10)
    (r : JobRegs C) : (r.writes ws).idxSize = r.idxSize := by
  induction ws generalizing r with
  | nil => rfl
  | cons w ws ih =>
    rw [List.forall_mem_cons] at words
    have other : ¬w.1 = 10 := fun same => by
      have ten := words.1.2
      rw [same] at ten
      exact absurd ten (by decide)
    exact (ih words.2 _).trans (if_neg other)

/-- The loops a data mover can be programmed with: as many as it has counters,
not empty, and of strides in words. -/
structure Programmable (C : Cfg) (loops : List (BitVec 32 × BitVec 32)) : Prop where
  nonempty : loops ≠ []
  most : loops.length ≤ C.NumLoops
  positive : ∀ loop ∈ loops, 1 ≤ loop.1.toNat
  fits : ∀ loop ∈ loops, loop.1.toNat ≤ 2 ^ C.IndexWidth
  aligned : ∀ loop ∈ loops, WordAligned C loop.2

/-- **The programmed registers hold the loops as differences.** -/
theorem Programmable.written {loops : List (BitVec 32 × BitVec 32)} (able : Programmable C loops)
    (r : JobRegs C) {m : Nat} {l : Level (BitVec C.PointerWidth)}
    (at_m : (encode (loops.map (absolute C)) 0)[m]? = some l) (j : Fin C.NumLoops)
    (position : j.val = m) :
    ((r.writes (snrtSsrLoop loops)).bound j).toNat = l.bound ∧
      (r.writes (snrtSsrLoop loops)).stride j = l.stride ∧
      l.stride.setWidth C.BytecntWidth = 0 := by
  have four : loops.length ≤ 4 := Nat.le_trans able.most C.loops_le
  have room : 0 + loops.length ≤ 4 := by omega
  have split : r.writes (snrtSsrLoop loops) =
      (r.writes (boundWrites 0 loops)).writes (strideWrites 0 0 loops) := by
    rw [snrtSsrLoop_eq loops able.nonempty four, JobRegs.writes_append]
  have zero : WordAligned C 0 := BitVec.setWidth_zero _ _
  have narrow : (0 : BitVec 32).setWidth C.PointerWidth = 0 := BitVec.setWidth_zero _ _
  have strides := (strides_written loops 0 0 room able.positive able.aligned zero
    (r.writes (boundWrites 0 loops)) j).2 m l
  obtain ⟨_, loop, member, bound⟩ := encode_idx_bound loops 0 at_m
  have here := (bounds_written loops 0 room r j).2 m loop member (by omega)
  have positive := able.positive loop (List.mem_of_getElem? member)
  have fits := able.fits loop (List.mem_of_getElem? member)
  rw [split]
  refine ⟨?_, strides (by rwa [narrow]) (by omega)⟩
  rw [bound_of_strideWrites loops 0 0 room, here, bound, BitVec.toNat_setWidth, toNat_pred positive]
  exact Nat.mod_eq_of_lt (by omega)

/-- The launch functions write aliases of the status register. -/
theorem launch_word (write : Bool) (dim : Fin 4) (ptr : BitVec 32) :
    ((snrtSsrLaunch write dim ptr).1 == 0) = false ∧
      (snrtSsrLaunch write dim ptr).1.getLsbD 4 = true ∧
      (snrtSsrLaunch write dim ptr).1.getLsbD 2 = write ∧
      (snrtSsrLaunch write dim ptr).1.extractLsb' 0 2 = BitVec.ofFin dim ∧
      (snrtSsrLaunch write dim ptr).1.getLsbD 3 = true := by
  have word : (snrtSsrLaunch write dim ptr).1 = (snrtSsrLaunch write dim 0).1 := by
    cases write <;> rfl
  rw [word]
  clear word
  revert write dim
  decide

/-! ## Idle data movers -/

/-- Nothing arrives from the index port or the intersector. -/
def Undisturbed (i : AgIn C) : Prop :=
  i.idxRsp.pValid = false ∧ i.isectSlvRsp.valid = false

instance (i : AgIn C) : Decidable (Undisturbed i) := inferInstanceAs (Decidable (_ ∧ _))

/-- The indirector holds nothing and is not cleaning up. -/
structure Indirector.Quiet {P : IndirParts C} (n : Indirector P) : Prop where
  idxFifo : P.idxFifo.contents n.idxFifo = []
  slvSpill : P.slvSpill.contents n.slvSpill = []
  doneFifo : P.doneFifo.contents n.doneFifo = []
  domp : n.isectMstDomp = false
  dom : n.isectMstDom = false
  doi : n.isectMstDoi = false

namespace Indirector.Quiet

variable {P : IndirParts C} {n : Indirector P} (quiet : n.Quiet)

include quiet

theorem idxSerValid : n.idxSerValid = false := by
  rw [Indirector.idxSerValid, (P.idxFifo.lawful.empty_iff _).mpr quiet.idxFifo]
  rfl

theorem doneOutValid : n.doneOutValid = false := by
  rw [Indirector.doneOutValid, (P.doneFifo.lawful.empty_iff _).mpr quiet.doneFifo]
  rfl

theorem isectMstHs (i : IndirIn C) (memReady : Bool) : n.isectMstHs i memReady = false := by
  rw [Indirector.isectMstHs, isectMstReq]
  split
  · simp [quiet.doi, quiet.idxSerValid]
  · simp

theorem memValid (i : IndirIn C) (memReady : Bool) : n.memValid i memReady = false := by
  rw [Indirector.memValid, quiet.doneOutValid, quiet.isectMstHs, quiet.dom, quiet.idxSerValid]
  simp

theorem idxFifoPop (fetches : C.IsectSlave = false) (i : IndirIn C) (memReady : Bool) :
    n.idxFifoPop i memReady = false := by
  rw [Indirector.idxFifoPop, bytecntEna, memHs, memSkip, quiet.memValid, quiet.isectMstHs, fetches]
  simp

theorem nextSlave {i : IndirIn C} (slvValid : i.isectSlvRsp.valid = false) (memReady : Bool) :
    (n.nextSlave i memReady).Quiet := by
  have shows : P.slvSpill.valid n.slvSpill i.isectSlvRsp.valid = false := by
    rw [P.slvSpill.lawful.valid_eq, quiet.slvSpill, slvValid, Bool.and_false]
    rfl
  have spill : (n.nextSlave i memReady).slvSpill = P.slvSpill.next n.slvSpill i.isectSlvRsp.valid
      (i.isectSlvRsp.idx, i.isectSlvRsp.done) (n.slvReady i) := rfl
  have flags : (n.nextSlave i memReady).doneFifo = P.doneFifo.next n.doneFifo false (n.slvHs i)
      (n.slvElem i).2 (memReady && n.doneOutValid) := rfl
  refine ⟨quiet.idxFifo, ?_, ?_, quiet.domp, quiet.dom, quiet.doi⟩
  · have law := P.slvSpill.lawful.conserve n.slvSpill i.isectSlvRsp.valid
      (i.isectSlvRsp.idx, i.isectSlvRsp.done) (n.slvReady i)
    rw [shows, quiet.slvSpill, slvValid, Bool.false_and, Bool.false_and] at law
    rw [spill, slvValid]
    exact law.symm
  · have law := P.doneFifo.lawful.next n.doneFifo false (n.slvElem i).2 false
      Bool.noConfusion Bool.noConfusion
    rw [quiet.doneFifo] at law
    rw [flags, slvHs, shows, quiet.doneOutValid, Bool.false_and, Bool.and_false]
    exact law

theorem nextFetch (fetches : C.IsectSlave = false) {i : IndirIn C}
    (pValid : i.idxRsp.pValid = false) (memReady : Bool) : (n.nextFetch i memReady).Quiet := by
  have pop := quiet.idxFifoPop fetches i memReady
  have hs := quiet.isectMstHs i memReady
  have init : n.clnInit i memReady = false := by rw [clnInit, hs, Bool.false_and]
  have last : n.idxSerLast i memReady = false := by
    rw [idxSerLast, pop, Bool.and_false, Bool.false_and]
  have words : (n.nextFetch i memReady).idxFifo = P.idxFifo.next n.idxFifo n.isectMstBlk
      i.idxRsp.pValid i.idxRsp.data (n.idxFifoPop i memReady) := rfl
  refine ⟨?_, quiet.slvSpill, quiet.doneFifo, ?_, ?_, ?_⟩
  · rw [words, pValid, pop]
    cases n.isectMstBlk with
    | true => exact P.idxFifo.lawful.flush _ _ _ _
    | false =>
      have law := P.idxFifo.lawful.next n.idxFifo false i.idxRsp.data false
        Bool.noConfusion Bool.noConfusion
      rw [quiet.idxFifo] at law
      exact law
  · simp [Indirector.nextFetch, init, quiet.domp, ffLoadClear]
  · simp [Indirector.nextFetch, init, quiet.domp, quiet.dom, ffLoadClear]
  · simp [Indirector.nextFetch, init, last, quiet.doi, ffLoadClear]

theorem next {i : IndirIn C} (pValid : i.idxRsp.pValid = false)
    (slvValid : C.IsectSlave = true → i.isectSlvRsp.valid = false) (memReady : Bool) :
    (n.next i memReady).Quiet := by
  rw [Indirector.next]
  split
  · rename_i slave
    exact quiet.nextSlave (slvValid slave) memReady
  · rename_i slave
    exact quiet.nextFetch (Bool.not_eq_true _ ▸ slave) pValid memReady

end Indirector.Quiet

namespace AddrGen

variable {P : AgParts C}

/-- No job runs, and none has left anything behind. -/
structure Rested (s : AddrGen P) : Prop where
  done : s.config.done = true
  index : ∀ k, s.index k = 0
  empty : s.queue = []
  quiet : s.indir.Quiet

namespace Rested

variable {s : AddrGen P} (rested : Rested s)

include rested

theorem spillInValid (i : AgIn C) : s.spillInValid i = false := by
  rw [AddrGen.spillInValid, rested.quiet.memValid, natitDone, rested.done, Bool.or_true]
  exact ite_self _

theorem enable (i : AgIn C) : s.enable i = false := by
  rw [AddrGen.enable, natitDone, rested.done, Bool.or_true]
  simp

theorem queue_next (i : AgIn C) : (s.next i).queue = [] := by
  by_cases indirection : C.Indirection = true
  · have law := s.output_next i indirection
    rw [rested.empty, rested.spillInValid, Bool.false_and, if_neg Bool.false_ne_true,
      List.append_nil] at law
    exact (List.append_eq_nil_iff.mp law.symm).2
  · rw [queue, if_neg indirection]

theorem index_next (i : AgIn C) (k : Fin C.NumLoops) : (s.next i).index k = 0 := by
  have register : (s.next i).index k = s.indexNext i k := rfl
  rw [register, indexNext, rested.enable, rested.index, Bool.false_and, ffLoadClear]
  split <;> rfl

/-- The marks of the previous job are cleared. -/
theorem marks_next (i : AgIn C) :
    (s.next i).natitBaseLast = false ∧ (s.next i).natitLastWordInflight = false := by
  have base : (s.next i).natitBaseLast = (C.Indirection &&
      ffLoadClear s.natitBaseLast s.natitBaseLastD (s.enable i) s.natitDone false) := rfl
  have word : (s.next i).natitLastWordInflight = (C.Indirection &&
      ffLoadClear s.natitLastWordInflight true (s.enable i && s.done i) s.config.done false) := rfl
  have all : s.natitDone = true := by rw [natitDone, rested.done, Bool.or_true]
  rw [base, word, all, rested.done]
  exact ⟨Bool.and_false _, Bool.and_false _⟩

theorem quiet_next {i : AgIn C} (pValid : i.idxRsp.pValid = false)
    (slvValid : C.IsectSlave = true → i.isectSlvRsp.valid = false) : (s.next i).indir.Quiet := by
  rw [next]
  dsimp only
  split
  · exact rested.quiet.next pValid slvValid _
  · exact rested.quiet

end Rested

/-- No job runs, is pending or has left anything behind. -/
structure Idle (s : AddrGen P) : Prop where
  done : s.config.done = true
  shadowDone : s.configS.done = true
  index : ∀ k, s.index k = 0
  empty : s.queue = []
  quiet : s.indir.Quiet

theorem idle_init (P : AgParts C) : Idle (init P) where
  done := rfl
  shadowDone := rfl
  index _ := rfl
  empty := by
    rw [queue]
    split
    · exact P.outSpill.lawful.init
    · rfl
  quiet := ⟨P.indir.idxFifo.lawful.init, P.indir.slvSpill.lawful.init,
    P.indir.doneFifo.lawful.init, rfl, rfl, rfl⟩

/-- The write presented in a cycle. -/
def cfgWriteOf (i : AgIn C) : Option CfgWrite :=
  if i.cfgWrite then some (i.cfgWord, i.cfgWdata) else none

/-- The writes presented along a run. -/
def cfgWrites (ins : List (AgIn C)) : List CfgWrite := ins.filterMap cfgWriteOf

namespace Idle

variable {s : AddrGen P} (idle : Idle s)

include idle

theorem rested : Rested s := ⟨idle.done, idle.index, idle.empty, idle.quiet⟩

/-- An idle data mover takes every write into both copies of its registers. -/
theorem next_regs (i : AgIn C) :
    (s.next i).regs = (s.next i).regsS ∧
      (s.next i).regsS = s.regsS.writes (cfgWriteOf i).toList := by
  refine ⟨if_pos idle.done, ?_⟩
  have register : (s.next i).regsS = s.regsD i := rfl
  rw [register, regsD, cfgWriteEna, idle.shadowDone, Bool.true_and, cfgWriteOf]
  cases i.cfgWrite <;> rfl

/-- Writes to bounds and strides launch nothing. -/
theorem next {i : AgIn C} (undisturbed : Undisturbed i)
    (words : ∀ w ∈ cfgWriteOf i, 2 ≤ w.1.toNat ∧ w.1.toNat < 10) : Idle (s.next i) := by
  have config : s.configD i = s.configS := by
    rw [configD, statusStrobe, aliasStrobe, cfgWriteEna, idle.shadowDone, Bool.true_and]
    cases writes : i.cfgWrite with
    | false => rfl
    | true =>
      obtain ⟨low, high⟩ := words (i.cfgWord, i.cfgWdata) (by rw [cfgWriteOf, writes]; rfl)
      have status : (i.cfgWord == 0) = false := by
        rw [beq_eq_false_iff_ne]
        intro same
        have least : 2 ≤ i.cfgWord.toNat := low
        rw [same] at least
        exact absurd least (by decide)
      have noAlias : i.cfgWord.getLsbD 4 = false := by
        have msb := BitVec.msb_eq_false_iff_two_mul_lt (x := i.cfgWord)
        rw [BitVec.msb_eq_getLsbD_last] at msb
        have below : i.cfgWord.toNat < 10 := high
        exact msb.mpr (by omega)
      rw [status, noAlias]
      rfl
  refine ⟨?_, ?_, idle.rested.index_next i, idle.rested.queue_next i,
    idle.rested.quiet_next undisturbed.1 fun _ => undisturbed.2⟩
  · have register : (s.next i).config = s.configNext i := rfl
    rw [register, configNext, if_pos idle.done, config, idle.shadowDone]
  · have register : (s.next i).configS = s.configSNext i := rfl
    rw [register, configSNext, if_pos idle.done]

theorem run (ins : List (AgIn C)) (undisturbed : ∀ i ∈ ins, Undisturbed i)
    (words : ∀ w ∈ cfgWrites ins, 2 ≤ w.1.toNat ∧ w.1.toNat < 10) :
    Idle ((machine P).run s ins) ∧
      ((machine P).run s ins).regsS = s.regsS.writes (cfgWrites ins) := by
  induction ins generalizing s with
  | nil => exact ⟨idle, rfl⟩
  | cons i ins ih =>
    rw [List.forall_mem_cons] at undisturbed
    have split : cfgWrites (i :: ins) = (cfgWriteOf i).toList ++ cfgWrites ins := by
      rw [cfgWrites, cfgWrites, List.filterMap_cons]
      cases cfgWriteOf i <;> rfl
    rw [split, List.forall_mem_append] at words
    have after := idle.next undisturbed.1 fun w member =>
      words.1 w (Option.mem_toList.mpr member)
    obtain ⟨still, regs⟩ := ih after undisturbed.2 words.2
    refine ⟨still, regs.trans ?_⟩
    have step := (idle.next_regs i).2
    rw [split]
    rw [step, JobRegs.writes_append]

/-- A launch starts the job with the registers as programmed. -/
theorem launch {i : AgIn C} {write : Bool} {dim : Fin 4} {p : BitVec 32}
    (launched : cfgWriteOf i = some (snrtSsrLaunch write dim p)) :
    (s.next i).job = ⟨p.setWidth _, ⟨false, write, BitVec.ofFin dim, false⟩, s.regsS⟩ := by
  have present : i.cfgWrite = true ∧ i.cfgWord = (snrtSsrLaunch write dim p).1 ∧
      i.cfgWdata = p := by
    rw [cfgWriteOf] at launched
    split at launched
    · rename_i writes
      have pair := Option.some.inj launched
      refine ⟨writes, congrArg Prod.fst pair, (congrArg Prod.snd pair).trans ?_⟩
      cases write <;> rfl
    · exact absurd launched.symm (Option.some_ne_none _)
  obtain ⟨writes, word, wdata⟩ := present
  obtain ⟨status, strobe, direction, dims, affine⟩ := launch_word write dim p
  rw [← word] at status strobe direction dims affine
  have enabled : s.cfgWriteEna i = true := by
    rw [cfgWriteEna, idle.shadowDone, writes]
    rfl
  have noStatus : s.statusStrobe i = false := by rw [statusStrobe, status, Bool.and_false]
  have aliased : s.aliasStrobe i = true := by rw [aliasStrobe, enabled, strobe]; rfl
  have pointer : s.pointerNext i = p.setWidth _ := by
    rw [pointerNext, if_pos idle.done, pointerD, noStatus, aliased, wdata]
    rfl
  have config : s.configNext i = ⟨false, write, BitVec.ofFin dim, false⟩ := by
    rw [configNext, if_pos idle.done, configD, noStatus, aliased, direction, dims, affine]
    rfl
  have regs : s.regsD i = s.regsS := by
    rw [regsD, if_pos enabled]
    exact JobRegs.write_status _ (Or.inr strobe) _
  have job : (s.next i).job =
      ⟨s.pointerNext i, s.configNext i, if s.config.done then s.regsD i else s.regs⟩ := rfl
  rw [job, pointer, config, if_pos idle.done, regs]

end Idle

/-! ## Launched jobs -/

/-- The addresses the loop functions document, from `p` on, the last loop given
outermost. -/
def programmedNest (C : Cfg) (loops : List (BitVec 32 × BitVec 32)) (p : BitVec 32) :
    List (BitVec C.PointerWidth) :=
  nest (loops.map (absolute C)).reverse (p.setWidth _)

/-- A data mover right after the launch of a programmed affine job. -/
structure Launched (loops : List (BitVec 32 × BitVec 32)) (write : Bool) (dim : Fin 4)
    (p : BitVec 32) (before s : AddrGen P) : Prop where
  job : s.job = ⟨p.setWidth _, ⟨false, write, BitVec.ofFin dim, false⟩,
    before.regsS.writes (snrtSsrLoop loops)⟩
  index : ∀ k, s.index k = 0
  baseLast : s.natitBaseLast = false
  issued : s.issued = false
  empty : s.queue = []

/-- Programming and launching an idle data mover. -/
theorem Idle.launched {s : AddrGen P} (idle : Idle s) {loops : List (BitVec 32 × BitVec 32)}
    (able : Programmable C loops) {write : Bool} {dim : Fin 4} {p : BitVec 32}
    (ins : List (AgIn C)) (last : AgIn C) (undisturbed : ∀ i ∈ ins, Undisturbed i)
    (programmed : cfgWrites ins = snrtSsrLoop loops)
    (launched : cfgWriteOf last = some (snrtSsrLaunch write dim p)) :
    Launched loops write dim p s (((machine P).run s ins).next last) := by
  have four : loops.length ≤ 4 := Nat.le_trans able.most C.loops_le
  have words : ∀ w ∈ cfgWrites ins, 2 ≤ w.1.toNat ∧ w.1.toNat < 10 := by
    rw [programmed, snrtSsrLoop_eq loops able.nonempty four, List.forall_mem_append]
    exact ⟨word_of_boundWrites loops 0 (by omega), word_of_strideWrites loops 0 0 (by omega)⟩
  obtain ⟨still, regs⟩ := idle.run ins undisturbed words
  have job := still.launch launched
  rw [regs, programmed] at job
  obtain ⟨base, word⟩ := still.rested.marks_next last
  refine ⟨job, still.rested.index_next last, base, ?_, still.rested.queue_next last⟩
  have running : (((machine P).run s ins).next last).config.done = false :=
    congrArg (fun j : Job C => j.config.done) job
  rw [issued, running, word]
  exact ite_self _

namespace Launched

variable {loops : List (BitVec 32 × BitVec 32)} {write : Bool} {dim : Fin 4} {p : BitVec 32}
  {before s : AddrGen P} (launched : Launched loops write dim p before s)

include launched

theorem regs : s.regs = before.regsS.writes (snrtSsrLoop loops) :=
  congrArg Job.regs launched.job

theorem config : s.config = ⟨false, write, BitVec.ofFin dim, false⟩ :=
  congrArg Job.config launched.job

theorem pointer : s.pointer = p.setWidth _ := congrArg Job.pointer launched.job

theorem masked_iff (dims : loops.length = dim.val + 1) (k : Fin C.NumLoops) :
    s.Masked k ↔ loops.length ≤ k.val := by
  rw [Masked, launched.config, dims]
  exact Nat.lt_iff_add_one_le

theorem not_beyond (e : Bool) (k : Fin C.NumLoops) : ¬s.Beyond e k := by
  rintro ⟨_, flags⟩
  rw [launched.baseLast, Bool.and_false] at flags
  exact Bool.noConfusion flags

theorem fresh (e : Bool) : ∀ l ∈ levels e s, l.idx = 0 := by
  rw [levels, List.forall_mem_ofFn_iff]
  intro k
  rw [idx_within (launched.not_beyond e k), launched.index]
  rfl

section

variable (able : Programmable C loops) (dims : loops.length = dim.val + 1)

include able dims

theorem walk :
    Walk s.extra s where
  affine := by rw [launched.config]
  extraword _ := rfl
  aligned k used := by
    rw [launched.masked_iff dims, Nat.not_le] at used
    have inside : k.val < (encode (loops.map (absolute C)) 0).length := by
      rwa [length_encode, List.length_map]
    have written := able.written before.regsS (List.getElem?_eq_getElem inside) k rfl
    rw [launched.regs, written.2.1]
    exact written.2.2
  masked k _ := launched.index k
  beyond k further := absurd further (launched.not_beyond _ k)
  within k _ _ := by
    rw [launched.index]
    exact Nat.zero_le _
  settled all := by
    rw [launched.issued] at all
    exact Bool.noConfusion all
  harmless x member := by
    rw [launched.empty] at member
    exact absurd member List.not_mem_nil

/-- Without an extra word the levels are the programmed loops; the loops beyond
the dimensions of the job run once. -/
theorem levels_eq : ∃ ones, levels false s = encode (loops.map (absolute C)) 0 ++ ones ∧
      ∀ l ∈ ones, l.bound = 0 := by
  have length : (encode (loops.map (absolute C)) 0).length = loops.length := by
    rw [length_encode, List.length_map]
  have most := able.most
  have front : (levels false s).take loops.length = encode (loops.map (absolute C)) 0 := by
    refine List.ext_getElem ?_ fun m inside there => ?_
    · rw [List.length_take, levels, List.length_ofFn, length, Nat.min_eq_left most]
    · rw [length] at there
      have at_m := List.getElem?_eq_getElem (length ▸ there)
      obtain ⟨bound, stride, _⟩ := able.written before.regsS at_m ⟨m, by omega⟩ rfl
      obtain ⟨idx, _⟩ := encode_idx_bound loops 0 at_m
      have used : ¬s.Masked ⟨m, by omega⟩ := by
        rw [launched.masked_iff dims]
        exact Nat.not_le.mpr there
      rw [List.getElem_take, levels_getElem]
      rw [← launched.regs] at bound stride
      refine Level.ext ?_ ?_ stride
      · rw [idx, idx_within (launched.not_beyond _ _), launched.index]
        rfl
      · rw [← bound]
        exact bound_used used
  refine ⟨(levels false s).drop loops.length, by rw [← front, List.take_append_drop], ?_⟩
  intro l member
  obtain ⟨m, inside, rfl⟩ := List.mem_iff_getElem.mp member
  rw [List.getElem_drop, levels_getElem]
  exact bound_masked _ ((launched.masked_iff dims _).mpr (Nat.le_add_right _ _))

theorem remaining_eq : remaining (levels false s) 0 s.pointer = programmedNest C loops p := by
  obtain ⟨ones, split, once⟩ := launched.levels_eq able dims
  obtain ⟨undo, apart⟩ := loops_append (encode (loops.map (absolute C)) 0) ones 0
  have positive : ∀ loop ∈ loops.map (absolute C), 1 ≤ loop.1 := by
    intro loop member
    obtain ⟨l, inside, rfl⟩ := List.mem_map.mp member
    exact able.positive l inside
  rw [remaining_fresh (launched.fresh false), split, apart, loops_encode _ positive,
    List.reverse_append, nest_ones _ _ ?_, launched.pointer, programmedNest]
  intro loop member
  exact loops_once once undo loop (List.mem_reverse.mp member)

end

/-- An extra word is an extra sweep of the base loop. -/
theorem length_extra (p q : BitVec C.PointerWidth) :
    (remaining (levels false s) 0 p).length < (remaining (levels true s) 0 q).length := by
  have product : ∀ (e : Bool) (q : BitVec C.PointerWidth),
      (remaining (levels e s) 0 q).length = ∏ k, ((level e s k).bound + 1) := by
    intro e q
    rw [length_remaining_fresh (launched.fresh e), levels, List.map_ofFn, List.prod_ofFn]
    rfl
  have upper : ∀ k ∈ Finset.univ.erase (base C),
      (level true s k).bound + 1 = (level false s k).bound + 1 := by
    intro k member
    have outside := Finset.ne_of_mem_erase member
    simp only [level, if_neg outside]
  rw [product, product, ← Finset.mul_prod_erase _ _ (Finset.mem_univ (base C)),
    ← Finset.mul_prod_erase _ _ (Finset.mem_univ (base C)), Finset.prod_congr rfl upper,
    bound_base, bound_base]
  refine Nat.mul_lt_mul_of_pos_right ?_ (Finset.prod_pos fun k _ => Nat.succ_pos _)
  exact Nat.lt_succ_self _

end Launched

/-- A state streams one list of addresses. -/
theorem StreamsExactly.unique {s : AddrGen P} {xs ys : List (BitVec C.PointerWidth)}
    (streamsX : StreamsExactly s xs) (streamsY : StreamsExactly s ys) : xs = ys := by
  have recurs : ∀ n : Nat, ∃ m, n ≤ m ∧ ({ memReady := true } : AgIn C).memReady = true :=
    fun n => ⟨n, Nat.le_refl n, rfl⟩
  obtain ⟨prefixX, ends⟩ := streamsX fun _ => { memReady := true }
  obtain ⟨prefixY, _⟩ := streamsY fun _ => { memReady := true }
  have first := Nat.find_spec (ends recurs)
  have before : ∀ m < Nat.find (ends recurs),
      ((machine P).stateAt s (fun _ => { memReady := true }) m).config.done = false :=
    fun m less => Bool.not_eq_true _ ▸ Nat.find_min (ends recurs) less
  exact ((prefixX _ before).2 first).1.symm.trans ((prefixY _ before).2 first).1

/-- The extra word: the byte offsets of the pointer and of the bound overflow a
word. -/
theorem Launched.extra_iff {loops : List (BitVec 32 × BitVec 32)} {write : Bool} {dim : Fin 4}
    {p : BitVec 32} {before s : AddrGen P} (launched : Launched loops write dim p before s)
    (able : Programmable C loops) {b0 s0 : BitVec 32} (first : loops.head? = some (b0, s0)) :
    s.extra = false ↔ C.Indirection = false ∨ C.IsectSlave = true ∨
      p.toNat % C.WordBytes + (b0.toNat - 1) * 2 ^ before.regsS.idxSize.toNat % C.WordBytes <
        C.WordBytes := by
  have four : loops.length ≤ 4 := Nat.le_trans able.most C.loops_le
  have size : s.regs.idxSize = before.regsS.idxSize := by
    rw [launched.regs, snrtSsrLoop_eq loops able.nonempty four]
    refine idxSize_writes _ ?_ _
    rw [List.forall_mem_append]
    exact ⟨word_of_boundWrites loops 0 (by omega), word_of_strideWrites loops 0 0 (by omega)⟩
  have bound : (s.regs.bound (base C)).toNat = b0.toNat - 1 := by
    rw [List.head?_eq_some_iff] at first
    obtain ⟨outer, rfl⟩ := first
    rw [launched.regs]
    exact (able.written before.regsS (m := 0) rfl (base C) rfl).1
  have offset : ((s.pointer.setWidth C.BytecntWidth).setWidth (C.BytecntWidth + 1)).toNat =
      p.toNat % C.WordBytes := by
    rw [launched.pointer, BitVec.setWidth_setWidth_of_le _ C.bytecnt_le, BitVec.toNat_setWidth,
      BitVec.toNat_setWidth]
    exact Nat.mod_eq_of_lt (Nat.lt_trans (Nat.mod_lt _ (Nat.two_pow_pos _))
      (Nat.pow_lt_pow_succ Nat.one_lt_two))
  have reach : (((s.regs.bound (base C)).setWidth C.BytecntWidth <<<
      s.regs.idxSize.toNat).setWidth (C.BytecntWidth + 1)).toNat =
        (b0.toNat - 1) * 2 ^ before.regsS.idxSize.toNat % C.WordBytes := by
    rw [BitVec.toNat_setWidth, BitVec.toNat_shiftLeft, BitVec.toNat_setWidth, size, bound,
      Nat.shiftLeft_eq, Nat.mod_mul_mod]
    exact Nat.mod_eq_of_lt (Nat.lt_trans (Nat.mod_lt _ (Nat.two_pow_pos _))
      (Nat.pow_lt_pow_succ Nat.one_lt_two))
  have small : ∀ n, n % C.WordBytes < C.WordBytes := fun n => Nat.mod_lt _ (Nat.two_pow_pos _)
  rw [extra, BitVec.msb_eq_decide, BitVec.toNat_add, offset, reach]
  cases C.Indirection with
  | false => simp
  | true =>
    cases C.IsectSlave with
    | true => simp
    | false =>
      have whole := small p.toNat
      have half := small ((b0.toNat - 1) * 2 ^ before.regsS.idxSize.toNat)
      have double : 2 ^ (C.BytecntWidth + 1) = C.WordBytes + C.WordBytes := by
        rw [Nat.pow_succ, Cfg.WordBytes]
        omega
      rw [double, Nat.mod_eq_of_lt (by omega)]
      simp [Cfg.WordBytes]

/-- **The affine stream.**  After the loop functions of `ssr.h` program an idle
data mover and a read or write launches it, the memory port shows exactly the
addresses of the programmed loop nest, unless the stream has an indirection
datapath and the byte offsets of the start address and of the innermost bound
overflow a word. -/
theorem streams_nest_iff {s : AddrGen P} (idle : Idle s) (loops : List (BitVec 32 × BitVec 32))
    (able : Programmable C loops) {b0 s0 : BitVec 32} (first : loops.head? = some (b0, s0))
    (dim : Fin 4) (dims : loops.length = dim.val + 1) (write : Bool) (p : BitVec 32)
    (ins : List (AgIn C)) (last : AgIn C) (undisturbed : ∀ i ∈ ins, Undisturbed i)
    (programmed : cfgWrites ins = snrtSsrLoop loops)
    (launch : cfgWriteOf last = some (snrtSsrLaunch write dim p)) :
    StreamsExactly (((machine P).run s ins).next last) (programmedNest C loops p) ↔
      C.Indirection = false ∨ C.IsectSlave = true ∨
        p.toNat % C.WordBytes + (b0.toNat - 1) * 2 ^ s.regsS.idxSize.toNat % C.WordBytes <
          C.WordBytes := by
  have launched := idle.launched able ins last undisturbed programmed launch
  have running : (((machine P).run s ins).next last).config.done = false := by
    rw [launched.config]
  have streams := (launched.walk able dims).streams running launched.issued launched.empty
  rw [← launched.extra_iff able first, ← launched.remaining_eq able dims]
  constructor
  · intro exactly
    by_contra extra
    rw [Bool.not_eq_false] at extra
    rw [extra] at streams
    have same := congrArg List.length (streams.unique exactly)
    have longer := launched.length_extra (((machine P).run s ins).next last).pointer
      (((machine P).run s ins).next last).pointer
    omega
  · intro extra
    rwa [extra] at streams

/-! ## A stream with indirection -/

/-- A stream with an indirection datapath. -/
def indirCfg : Cfg := { Cfg.affine with Indirection := true }

/-- Programming one loop of `b` iterations over words. -/
def wordLoop (b : BitVec 32) : List (AgIn indirCfg) :=
  (snrtSsrLoop [(b, 8)]).map fun w =>
    { cfgWord := w.1, cfgWdata := w.2, cfgWrite := true, memReady := false }

/-- There are four dimensions to name. -/
theorem fourDims : @NeZero Nat Zero.ofOfNat0 4 := ⟨Nat.succ_ne_zero 3⟩

attribute [local instance] fourDims

/-- Launching a read at `p`. -/
def readAt (p : BitVec 32) : AgIn indirCfg :=
  { cfgWord := (snrtSsrLaunch false 0 p).1, cfgWdata := (snrtSsrLaunch false 0 p).2,
    cfgWrite := true, memReady := false }

/-- Started at a word, the stream of five visits its five addresses. -/
theorem aligned_stream :
    StreamsExactly (((machine (.ofList indirCfg)).run (init _) (wordLoop 5)).next (readAt 64))
      (programmedNest indirCfg [(5, 8)] 64) :=
  (streams_nest_iff (idle_init (.ofList indirCfg)) [(5, 8)]
    ⟨by decide, by decide, List.forall_mem_singleton.mpr (by decide),
      List.forall_mem_singleton.mpr (by decide), List.forall_mem_singleton.mpr (by decide)⟩
    rfl 0 rfl false 64 (wordLoop 5) (readAt 64) (by decide) rfl rfl).mpr (by decide)

/-- Started at half a word, the stream of five runs to a sixth address. -/
theorem unaligned_stream_overruns :
    ¬StreamsExactly (((machine (.ofList indirCfg)).run (init _) (wordLoop 5)).next (readAt 68))
      (programmedNest indirCfg [(5, 8)] 68) := by
  intro exactly
  have visited := ((exactly fun _ => { memReady := true }).1 7 (by decide)).1
  exact absurd visited (by decide)

end AddrGen

end SnitchCluster.Ssr
