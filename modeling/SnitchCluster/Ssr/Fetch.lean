/-
# Ssr.Fetch -- how an indirect job fetches its indices

An indirect job runs the innermost loop over the words of its index array and cuts the
words that arrive into indices.  `Job.indices` is that array: entries of two to the power
of the size bytes, from wherever in a word the job's pointer is.

`Fetching` reads the registers as three counts: the words asked for, the words received
and the indices used.  Credits, queue, byte counter and the marks of the last word are
functions of the three (`Fetching.next` is the cycle), whoever decides which indices are
used: the output, or the intersector.
-/
import SnitchCluster.Ssr.AddrGen
import SnitchCluster.Theory.Packed

namespace SnitchCluster.Ssr

open Theory

variable {C : Cfg}

/-! ## The index array of a job -/

namespace Job

variable (J : Job C)

/-- The size of an index, in bytes a power of two. -/
def size : Nat := J.regs.idxSize.toNat

/-- The indices, packed in bus words. -/
def indices : Packed where
  per := 2 ^ (C.BytecntWidth - J.size)
  first := J.pointer.toNat / 2 ^ J.size % 2 ^ (C.BytecntWidth - J.size)
  bound := (J.regs.bound (AddrGen.base C)).toNat
  inside := Nat.mod_lt _ (Nat.two_pow_pos _)

/-- The bound in words, without the carry of the first offset. -/
def wordBound : Nat := J.indices.bound / 2 ^ (3 - J.size)

/-- The address of a word of the array, from the word the first index is in. -/
def wordAddr (w : Nat) : BitVec C.PointerWidth :=
  (J.pointer &&& (BitVec.allOnes _ <<< C.BytecntWidth)) + BitVec.ofNat _ (C.WordBytes * w)

/-- A stream of a 64-bit bus that fetches indices, aligned to their size. -/
structure Fetches : Prop where
  bus : C.BytecntWidth = 3
  credits : 1 ≤ C.IndexCredits
  indirection : C.Indirection = true
  fetches : C.IsectSlave = false
  indir : J.config.indir = true
  aligned : J.pointer.toNat % 2 ^ J.size = 0

end Job

/-- How the bound in words follows from bound and offset in indices. -/
theorem words_of_bound {k q b : Nat} (small : k ≤ 3) (inside : q < 2 ^ (3 - k)) :
    (q + b) / 2 ^ (3 - k) = b / 2 ^ (3 - k) + (decide (8 ≤ q * 2 ^ k + b * 2 ^ k % 8)).toNat := by
  have sizes : k = 0 ∨ k = 1 ∨ k = 2 ∨ k = 3 := by omega
  by_cases carries : 8 ≤ q * 2 ^ k + b * 2 ^ k % 8
  · rw [decide_eq_true carries, Bool.toNat_true]
    rcases sizes with rfl | rfl | rfl | rfl <;> omega
  · rw [decide_eq_false carries, Bool.toNat_false]
    rcases sizes with rfl | rfl | rfl | rfl <;> omega

/-- The byte offset of an index is its slot. -/
theorem bytes_of_slot {k q b : Nat} (small : k ≤ 3) (inside : q < 2 ^ (3 - k)) :
    (q * 2 ^ k + b * 2 ^ k % 8) % 8 = (q + b) % 2 ^ (3 - k) * 2 ^ k := by
  have sizes : k = 0 ∨ k = 1 ∨ k = 2 ∨ k = 3 := by omega
  rcases sizes with rfl | rfl | rfl | rfl <;> omega

theorem bytes_succ {k s : Nat} (small : k ≤ 3) (inside : s < 2 ^ (3 - k)) :
    (s * 2 ^ k + 1 <<< k % 8) % 8 = (if s + 1 = 2 ^ (3 - k) then 0 else s + 1) * 2 ^ k := by
  have sizes : k = 0 ∨ k = 1 ∨ k = 2 ∨ k = 3 := by omega
  rcases sizes with rfl | rfl | rfl | rfl <;> split <;> omega

namespace Job.Fetches

variable {J : Job C} (fetches : J.Fetches)

include fetches

theorem word_bytes : 2 ^ C.BytecntWidth = 8 := by
  rw [fetches.bus]
  rfl

theorem sizes : 2 ^ C.SizeWidth = 4 := by
  rw [Cfg.SizeWidth, fetches.bus]
  decide

theorem size_le : J.size ≤ 3 := by
  have bound : J.size < 4 := Nat.lt_of_lt_of_eq J.regs.idxSize.isLt fetches.sizes
  omega

theorem per_eq : J.indices.per = 2 ^ (3 - J.size) := by
  have per : J.indices.per = 2 ^ (C.BytecntWidth - J.size) := rfl
  rw [per, fetches.bus]

theorem inside : J.indices.first < 2 ^ (3 - J.size) := fetches.per_eq ▸ J.indices.inside

/-- The first index starts at its slot. -/
theorem offset_eq : J.pointer.toNat % 8 = J.indices.first * 2 ^ J.size := by
  have small := fetches.size_le
  have aligned := fetches.aligned
  have first : J.indices.first = J.pointer.toNat / 2 ^ J.size % 2 ^ (C.BytecntWidth - J.size) := rfl
  rw [first, fetches.bus]
  have sizes : J.size = 0 ∨ J.size = 1 ∨ J.size = 2 ∨ J.size = 3 := by omega
  rcases sizes with size | size | size | size <;> rw [size] at aligned ⊢ <;> omega

theorem indir_next {P : AgParts C} (s : AddrGen P) (i : AgIn C) :
    (s.next i).indir = s.indir.nextFetch (s.indirIn i) (s.spillInReady i) := by
  have register : (s.next i).indir =
      if C.Indirection then s.indir.next (s.indirIn i) (s.spillInReady i) else s.indir := rfl
  rw [register, if_pos fetches.indirection, Indirector.next, fetches.fetches,
    if_neg Bool.false_ne_true]

end Job.Fetches

/-! ## The registers as counts -/

namespace AddrGen

variable {P : AgParts C}

/-- A job of which `f` words have been asked for, `w` received and `c` indices used. -/
structure Fetching (J : Job C) (word : Nat → BitVec C.DataWidth) (f w c : Nat)
    (s : AddrGen P) : Prop where
  regs : s.regs = J.regs
  indir : s.config.indir = true
  dims : s.config.dims = J.config.dims
  pointer : s.pointer = J.pointer + BitVec.ofNat _ (C.WordBytes * f)
  upper : ∀ k, k ≠ base C → s.index k = 0
  index : s.index (base C) = if f = J.indices.words then 0 else BitVec.ofNat _ f
  baseLast : f < J.indices.words →
    s.natitBaseLast = decide (f = J.wordBound + 1)
  inflight : s.natitLastWordInflight = decide (f = J.indices.words)
  bytecnt : s.indir.idxBytecnt.toNat = J.indices.slotOf c * 2 ^ J.size
  queue : P.indir.idxFifo.contents s.indir.idxFifo =
    (List.range' (J.indices.used c) (w - J.indices.used c)).map word
  credit : s.indir.idxCredit.toNat + (f - J.indices.used c) = C.IndexCredits
  used : J.indices.used c ≤ w
  received : w ≤ f
  asked : f ≤ J.indices.words
  within : c ≤ J.indices.bound + 1
  unblocked : s.indir.isectMstBlk = false
  unlocked : s.indir.isectIdxLockin = false

namespace Fetching

variable {J : Job C} {word : Nat → BitVec C.DataWidth} {f w c : Nat} {s : AddrGen P}
  (fetching : Fetching J word f w c s) (fetches : J.Fetches)

include fetching

theorem natitDone (running : s.config.done = false) :
    s.natitDone = decide (f = J.indices.words) := by
  rw [AddrGen.natitDone, running, Bool.or_false, fetching.inflight]

/-- A word is asked for as long as there is credit and words are left. -/
theorem natitEna_iff (running : s.config.done = false) (i : AgIn C) :
    s.indir.natitEna (s.indirIn i) = true ↔
      f - J.indices.used c < C.IndexCredits ∧ f < J.indices.words := by
  have credit := fetching.credit
  have asked := fetching.asked
  rw [Indirector.natitEna, fetching.unblocked, Bool.not_false, Bool.and_true]
  show (s.config.indir && s.indir.idxCredit.left && !s.natitDone) = true ↔ _
  rw [fetching.indir, fetching.natitDone running, Bool.true_and, Bool.and_eq_true,
    Credit.left_iff, Bool.not_eq_true', decide_eq_false_iff_not]
  omega

theorem idxQvalid (fetches : J.Fetches) (i : AgIn C) :
    s.indir.idxQvalid (s.indirIn i) = s.indir.natitEna (s.indirIn i) := by
  rw [Indirector.idxQvalid, fetches.fetches, if_neg Bool.false_ne_true, fetching.unlocked,
    Bool.or_false]

/-- The counters advance with every word asked for. -/
theorem enable_eq (fetches : J.Fetches) (running : s.config.done = false) (i : AgIn C) :
    s.enable i = s.indir.idxQhs (s.indirIn i) := by
  rw [enable, fetches.indirection, fetching.indir, if_pos rfl, if_pos rfl,
    Indirector.natitReady, fetches.fetches, if_neg Bool.false_ne_true, Indirector.idxQhs,
    fetching.idxQvalid fetches]
  cases asks : s.indir.natitEna (s.indirIn i) with
  | false => rw [Bool.false_and, Bool.and_false]
  | true =>
    have free : s.natitDone = false := by
      rw [fetching.natitDone running, decide_eq_false_iff_not]
      have below := ((fetching.natitEna_iff running i).mp asks).2
      omega
    rw [free]
    rfl

/-- While words are stocked, indices are left. -/
theorem more (stocked : J.indices.used c < w) : c ≤ J.indices.bound := by
  have received := fetching.received
  have asked := fetching.asked
  have within := fetching.within
  by_contra beyond
  have all : c = J.indices.bound + 1 := by omega
  rw [all, Packed.used_all] at stocked
  omega

/-! ### The last word -/

/-- The byte offset of the pointer stays. -/
theorem offset (i : AgIn C) :
    (s.indirIn i).natitPointer.setWidth C.BytecntWidth = J.pointer.setWidth C.BytecntWidth := by
  show s.pointer.setWidth _ = _
  have whole : (BitVec.ofNat C.PointerWidth (C.WordBytes * f)).setWidth C.BytecntWidth = 0 := by
    apply BitVec.eq_of_toNat_eq
    rw [BitVec.toNat_setWidth, BitVec.toNat_ofNat,
      Nat.mod_mod_of_dvd _ (Nat.pow_dvd_pow 2 C.bytecnt_le), Cfg.WordBytes, Nat.mul_mod_right]
    rfl
  rw [fetching.pointer, BitVec.setWidth_add _ _ C.bytecnt_le, whole]
  exact BitVec.add_zero _

theorem loopLast_upper (i : AgIn C) {k : Fin C.NumLoops} (above : k ≠ base C) :
    s.loopLast i k = true := by
  rw [loopLast, if_neg above, fetching.indir, Bool.true_or]

theorem upper_next (i : AgIn C) (k : Fin C.NumLoops) (above : k ≠ base C) : (s.next i).index k = 0 := by
  have register : (s.next i).index k = s.indexNext i k := rfl
  rw [register, indexNext, fetching.loopLast_upper i above, Bool.and_true,
    fetching.upper k above, ffLoadClear]
  cases s.enable i && s.loopEnabled i k <;> simp [above]

include fetches

/-- The byte offsets of the first index and of the bound add up. -/
theorem natitSum_toNat (i : AgIn C) : (Indirector.natitSum (s.indirIn i)).toNat =
    J.indices.first * 2 ^ J.size + J.indices.bound * 2 ^ J.size % 8 := by
  have carry : 2 ^ (C.BytecntWidth + 1) = 16 := by rw [Nat.pow_succ, fetches.word_bytes]
  have start : ((s.indirIn i).natitPointer.setWidth C.BytecntWidth).toNat =
      J.indices.first * 2 ^ J.size := by
    rw [fetching.offset, BitVec.toNat_setWidth, fetches.word_bytes, fetches.offset_eq]
  have offset : (s.indirIn i).natitBoundoffs.toNat = J.indices.bound * 2 ^ J.size % 8 := by
    show ((s.regs.bound (base C)).setWidth C.BytecntWidth <<< s.regs.idxSize.toNat).toNat = _
    rw [fetching.regs, BitVec.toNat_shiftLeft, BitVec.toNat_setWidth, fetches.word_bytes, Nat.shiftLeft_eq,
      Nat.mod_mul_mod]
    rfl
  have below := fetches.offset_eq ▸ Nat.mod_lt J.pointer.toNat (show (8 : Nat) > 0 by decide)
  rw [Indirector.natitSum, BitVec.toNat_add, BitVec.toNat_setWidth _ (BitVec.setWidth _ _), start,
    BitVec.toNat_setWidth, offset, carry]
  omega

theorem extraword_eq (i : AgIn C) : s.natitExtraword i =
    decide (8 ≤ J.indices.first * 2 ^ J.size + J.indices.bound * 2 ^ J.size % 8) := by
  rw [natitExtraword, Indirector.natitExtraword, fetches.fetches, Bool.not_false, Bool.true_and,
    BitVec.msb_eq_decide, fetching.natitSum_toNat fetches, Nat.add_sub_cancel, fetches.word_bytes]

/-- The byte offset of the last index. -/
theorem lastOffset_eq (i : AgIn C) :
    ((Indirector.natitSum (s.indirIn i)).setWidth C.BytecntWidth).toNat =
      J.indices.slotOf J.indices.bound * 2 ^ J.size := by
  rw [BitVec.toNat_setWidth, fetching.natitSum_toNat fetches, fetches.word_bytes,
    bytes_of_slot fetches.size_le fetches.inside, Packed.slotOf, fetches.per_eq]

theorem words_eq (i : AgIn C) :
    J.indices.words = J.wordBound + 1 + (s.natitExtraword i).toNat := by
  rw [Packed.words, Packed.wordOf, fetches.per_eq,
    words_of_bound fetches.size_le fetches.inside, fetching.extraword_eq fetches, Job.wordBound]
  omega

theorem natitBaseBound_toNat :
    s.natitBaseBound.toNat = J.wordBound := by
  have amount : (BitVec.allOnes C.SizeWidth - s.regs.idxSize).toNat = 3 - J.size := by
    rw [BitVec.allOnes_sub_eq_not, BitVec.toNat_not, fetches.sizes, fetching.regs]
    rfl
  rw [natitBaseBound, fetching.indir, if_pos rfl, amount, fetching.regs, BitVec.toNat_ushiftRight,
    Nat.shiftRight_eq_div_pow]
  rfl

theorem natitBaseLastD_eq (i : AgIn C) (left : f < J.indices.words) :
    s.natitBaseLastD = decide (f = J.wordBound) := by
  have words := fetching.words_eq fetches i
  have extra := Bool.toNat_le (s.natitExtraword i)
  have bound := fetching.natitBaseBound_toNat fetches
  have range := s.natitBaseBound.isLt
  have two : 2 ^ 1 ≤ 2 ^ C.IndexWidth := Nat.pow_le_pow_right Nat.two_pos C.index_pos
  rw [natitBaseLastD, fetching.index, if_neg (by omega), Bool.eq_iff_iff, beq_iff_eq,
    ← BitVec.toNat_inj, bound, BitVec.toNat_ofNat, decide_eq_true_iff]
  rw [bound] at range
  by_cases beyond : f = J.wordBound + 1
  · by_cases wraps : J.wordBound + 1 < 2 ^ C.IndexWidth
    · rw [beyond, Nat.mod_eq_of_lt wraps]
    · have full : J.wordBound + 1 = 2 ^ C.IndexWidth := by omega
      rw [beyond, full, Nat.mod_self]
      omega
  · rw [Nat.mod_eq_of_lt (by omega)]

theorem loopLast_base (i : AgIn C) (left : f < J.indices.words) :
    s.loopLast i (base C) = decide (f + 1 = J.indices.words) := by
  have words := fetching.words_eq fetches i
  rw [loopLast, if_pos rfl, if_pos fetches.indirection, fetching.baseLast left,
    fetching.natitBaseLastD_eq fetches i left, words]
  cases s.natitExtraword i with
  | true =>
    rw [if_pos rfl, Bool.toNat_true, Bool.eq_iff_iff, decide_eq_true_iff, decide_eq_true_iff]
    omega
  | false =>
    rw [if_neg Bool.false_ne_true, Bool.toNat_false, Bool.eq_iff_iff, decide_eq_true_iff,
      decide_eq_true_iff]
    omega

/-- The loops end with the last word. -/
theorem done_eq (i : AgIn C) (left : f < J.indices.words) :
    s.done i = decide (f + 1 = J.indices.words) := by
  rw [Bool.eq_iff_iff, ← fetching.loopLast_base fetches i left, done, List.all_eq_true]
  constructor
  · intro all
    exact all _ (List.mem_finRange _)
  · intro last k _
    by_cases at_base : k = base C
    · rw [at_base, last]
    · exact fetching.loopLast_upper i at_base

/-! ### Cutting words into indices -/

theorem lastWord_iff (running : s.config.done = false) (i : AgIn C)
    (more : c ≤ J.indices.bound) :
    s.indir.lastWord (s.indirIn i) = true ↔
      f = J.indices.words ∧ J.indices.used c + 1 = J.indices.words := by
  have credit := fetching.credit
  have some := fetches.credits
  have below := J.indices.used_lt_words more
  rw [Indirector.lastWord, Bool.and_eq_true, Credit.crit_iff]
  show _ ∧ s.natitDone = true ↔ _
  rw [fetching.natitDone running, decide_eq_true_iff]
  omega

theorem bytecntNext_toNat (i : AgIn C) :
    (s.indir.bytecntNext (s.indirIn i)).toNat = J.indices.slotOf (c + 1) * 2 ^ J.size := by
  have size : (s.indirIn i).cfgSize.toNat = J.size := by
    show s.regs.idxSize.toNat = _
    rw [fetching.regs]
    rfl
  have inside : J.indices.slotOf c < 2 ^ (3 - J.size) := fetches.per_eq ▸ J.indices.slotOf_lt c
  rw [Indirector.bytecntNext, BitVec.toNat_add, BitVec.toNat_ofNat, fetching.bytecnt, size,
    fetches.word_bytes, bytes_succ fetches.size_le inside, Packed.slotOf_succ, fetches.per_eq]

theorem bytecntRovr_eq (i : AgIn C) : s.indir.bytecntRovr (s.indirIn i) =
    decide (J.indices.slotOf c + 1 = J.indices.per) := by
  have positive := Nat.two_pow_pos J.size
  have zero : (0 : BitVec C.BytecntWidth).toNat = 0 := BitVec.toNat_zero
  rw [Indirector.bytecntRovr, Bool.eq_iff_iff, beq_iff_eq, decide_eq_true_iff,
    ← BitVec.toNat_inj, fetching.bytecntNext_toNat fetches, zero, Nat.mul_eq_zero,
    Packed.slotOf_succ]
  by_cases rolls : J.indices.slotOf c + 1 = J.indices.per
  · simp [rolls]
  · simp [rolls]

/-- A word leaves the queue with the last index cut from it. -/
theorem idxFifoPop_eq (running : s.config.done = false) (i : AgIn C) (memReady : Bool)
    (stocked : J.indices.used c < w) : s.indir.idxFifoPop (s.indirIn i) memReady =
      (s.indir.bytecntEna (s.indirIn i) memReady &&
        (decide (c = J.indices.bound) || decide (J.indices.slotOf c + 1 = J.indices.per))) := by
  have received := fetching.received
  have asked := fetching.asked
  have more := fetching.more stocked
  rw [Indirector.idxFifoPop]
  congr 1
  by_cases last : s.indir.lastWord (s.indirIn i) = true
  · have final := (fetching.lastWord_iff fetches running i more).mp last
    have positive := Nat.two_pow_pos J.size
    rw [if_pos last, Bool.eq_iff_iff, beq_iff_eq, ← BitVec.toNat_inj, fetching.bytecnt,
      fetching.lastOffset_eq fetches, Nat.mul_left_inj positive.ne',
      J.indices.slotOf_eq_iff more final.2, Bool.or_eq_true, decide_eq_true_iff,
      decide_eq_true_iff]
    constructor
    · intro here
      exact Or.inl here
    · intro ends
      rcases ends with here | rolls
      · exact here
      · exact J.indices.last_of_rolls more final.2 rolls
  · have before : ¬c = J.indices.bound := by
      intro here
      apply last
      rw [fetching.lastWord_iff fetches running i more]
      have final : J.indices.used c + 1 = J.indices.words := by
        rw [J.indices.used_of_le more, here, Packed.words]
      omega
    rw [if_neg last, fetching.bytecntRovr_eq fetches, decide_eq_false before, Bool.false_or]

/-- The last index of the job is recognised by the credits and its byte offset. -/
theorem idxSerLast_eq (running : s.config.done = false) (i : AgIn C) (memReady : Bool)
    (stocked : J.indices.used c < w) : s.indir.idxSerLast (s.indirIn i) memReady =
      (s.indir.bytecntEna (s.indirIn i) memReady && decide (c = J.indices.bound)) := by
  have more := fetching.more stocked
  have received := fetching.received
  have asked := fetching.asked
  rw [Indirector.idxSerLast, fetching.unblocked, Bool.not_false, Bool.and_true,
    fetching.idxFifoPop_eq fetches running i memReady stocked]
  cases s.indir.bytecntEna (s.indirIn i) memReady with
  | false => rw [Bool.false_and, Bool.and_false, Bool.false_and]
  | true =>
    rw [Bool.true_and, Bool.true_and, Bool.eq_iff_iff, Bool.and_eq_true, Bool.or_eq_true,
      fetching.lastWord_iff fetches running i more, decide_eq_true_iff, decide_eq_true_iff]
    constructor
    · rintro ⟨final, ends | rolls⟩
      · exact ends
      · exact J.indices.last_of_rolls more final.2 rolls
    · intro ends
      have final : J.indices.used c + 1 = J.indices.words := by
        rw [J.indices.used_of_le more, ends, Packed.words]
      exact ⟨⟨by omega, final⟩, Or.inl ends⟩

end Fetching

/-! ### The cycle -/

/-- A cycle of a job that fetches: the output shows no end of the job, words arrive in
order, and the indices used are there. -/
structure FetchCycle (J : Job C) (word : Nat → BitVec C.DataWidth) (f w c : Nat)
    (s : AddrGen P) (i : AgIn C) : Prop where
  running : s.config.done = false
  alive : (s.memPtrHs i && s.memKill i) = false
  arrives : i.idxRsp.pValid = true → w < f ∧ i.idxRsp.data = word w
  stocked : s.indir.bytecntEna (s.indirIn i) (s.spillInReady i) = true → J.indices.used c < w

/-- A word that is used up has been received. -/
theorem FetchCycle.pop_stocked {J : Job C} {word : Nat → BitVec C.DataWidth} {f w c : Nat} {s : AddrGen P}
    {i : AgIn C} (cycle : FetchCycle J word f w c s i)
    (pops : s.indir.idxFifoPop (s.indirIn i) (s.spillInReady i) = true) :
    J.indices.used c < w := by
  rw [Indirector.idxFifoPop, Bool.and_eq_true] at pops
  exact cycle.stocked pops.1

namespace Fetching

variable {J : Job C} {word : Nat → BitVec C.DataWidth} {f w c : Nat} {s : AddrGen P} {i : AgIn C}
  (fetching : Fetching J word f w c s) (fetches : J.Fetches) (cycle : FetchCycle J word f w c s i)

include fetching fetches cycle

theorem asks (fetched : s.indir.idxQhs (s.indirIn i) = true) :
    f - J.indices.used c < C.IndexCredits ∧ f < J.indices.words := by
  rw [Indirector.idxQhs, Bool.and_eq_true, fetching.idxQvalid fetches] at fetched
  exact (fetching.natitEna_iff cycle.running i).mp fetched.1

theorem pointer_next : (s.next i).pointer =
    J.pointer + BitVec.ofNat _ (C.WordBytes * (f + (s.indir.idxQhs (s.indirIn i)).toNat)) := by
  have register : (s.next i).pointer = s.pointerNext i := rfl
  rw [register, pointerNext, if_neg (Bool.not_eq_true _ ▸ cycle.running),
    fetching.enable_eq fetches cycle.running, fetching.pointer]
  cases s.indir.idxQhs (s.indirIn i) with
  | false => rfl
  | true =>
    rw [if_pos rfl, selectedStride, fetches.indirection, fetching.indir, Bool.and_self,
      if_pos rfl, Bool.toNat_true, Nat.mul_succ, BitVec.ofNat_add, BitVec.add_assoc]

theorem index_next : (s.next i).index (base C) =
    if f + (s.indir.idxQhs (s.indirIn i)).toNat = J.indices.words then 0
    else BitVec.ofNat _ (f + (s.indir.idxQhs (s.indirIn i)).toNat) := by
  have register : (s.next i).index (base C) = s.indexNext i (base C) := rfl
  have enabled : s.loopEnabled i (base C) = true := by
    rw [loopEnabled, List.all_eq_true]
    intro j _
    rw [Bool.or_eq_true, decide_eq_true_iff]
    exact Or.inl (Nat.zero_le _)
  rw [register, indexNext, cycle.alive, Bool.and_false, Bool.or_false, enabled, Bool.and_true,
    fetching.enable_eq fetches cycle.running, ffLoadClear]
  cases fetched : s.indir.idxQhs (s.indirIn i) with
  | false => exact fetching.index
  | true =>
    have left := (fetching.asks fetches cycle fetched).2
    rw [Bool.true_and, fetching.loopLast_base fetches i left, fetching.index,
      if_neg (Nat.ne_of_lt left), Bool.toNat_true]
    by_cases final : f + 1 = J.indices.words
    · rw [if_pos final, decide_eq_true final, if_pos rfl]
    · rw [if_neg final, decide_eq_false final, if_neg Bool.false_ne_true, if_pos rfl,
        BitVec.ofNat_add]
      rfl

theorem inflight_next : (s.next i).natitLastWordInflight =
    decide (f + (s.indir.idxQhs (s.indirIn i)).toNat = J.indices.words) := by
  have register : (s.next i).natitLastWordInflight = (C.Indirection &&
      ffLoadClear s.natitLastWordInflight true (s.enable i && s.done i) s.config.done false) := rfl
  rw [register, fetches.indirection, cycle.running, fetching.enable_eq fetches cycle.running,
    Bool.true_and, ffLoadClear, if_neg Bool.false_ne_true, fetching.inflight]
  cases fetched : s.indir.idxQhs (s.indirIn i) with
  | false => rfl
  | true =>
    have left := (fetching.asks fetches cycle fetched).2
    rw [Bool.true_and, fetching.done_eq fetches i left, Bool.toNat_true,
      decide_eq_false (Nat.ne_of_lt left)]
    cases decide (f + 1 = J.indices.words) <;> rfl

theorem baseLast_next
    (left : f + (s.indir.idxQhs (s.indirIn i)).toNat < J.indices.words) :
    (s.next i).natitBaseLast =
      decide (f + (s.indir.idxQhs (s.indirIn i)).toNat = J.wordBound + 1) := by
  have register : (s.next i).natitBaseLast = (C.Indirection &&
      ffLoadClear s.natitBaseLast s.natitBaseLastD (s.enable i) s.natitDone false) := rfl
  have before : f < J.indices.words := by omega
  rw [register, fetches.indirection, fetching.natitDone cycle.running,
    decide_eq_false (Nat.ne_of_lt before), fetching.enable_eq fetches cycle.running,
    fetching.natitBaseLastD_eq fetches i before, fetching.baseLast before, Bool.true_and,
    ffLoadClear, if_neg Bool.false_ne_true]
  cases s.indir.idxQhs (s.indirIn i) with
  | false => rfl
  | true =>
    rw [if_pos rfl, Bool.toNat_true, Bool.eq_iff_iff, decide_eq_true_iff, decide_eq_true_iff]
    omega

/-- The words used up after a cycle. -/
theorem used_next :
    J.indices.used (c + (s.indir.bytecntEna (s.indirIn i) (s.spillInReady i)).toNat) =
      J.indices.used c + (s.indir.idxFifoPop (s.indirIn i) (s.spillInReady i)).toNat := by
  cases taken : s.indir.bytecntEna (s.indirIn i) (s.spillInReady i) with
  | false =>
    rw [Indirector.idxFifoPop, taken, Bool.false_and, Bool.toNat_false, Nat.add_zero,
      Nat.add_zero]
  | true =>
    have stocked := cycle.stocked taken
    have more := fetching.more stocked
    rw [fetching.idxFifoPop_eq fetches cycle.running i _ stocked, taken, Bool.true_and,
      Bool.toNat_true, J.indices.used_succ more]

theorem bytecnt_next : (s.next i).indir.idxBytecnt.toNat =
    J.indices.slotOf (c + (s.indir.bytecntEna (s.indirIn i) (s.spillInReady i)).toNat) *
      2 ^ J.size := by
  have register : (s.next i).indir.idxBytecnt =
      s.indir.idxBytecntNext (s.indirIn i) (s.spillInReady i) := by
    rw [fetches.indir_next]
    rfl
  rw [register, Indirector.idxBytecntNext]
  show (if s.config.done then _ else _ : BitVec C.BytecntWidth).toNat = _
  rw [cycle.running, if_neg Bool.false_ne_true]
  cases s.indir.bytecntEna (s.indirIn i) (s.spillInReady i) with
  | false => exact fetching.bytecnt
  | true => exact fetching.bytecntNext_toNat fetches i

theorem queue_next : P.indir.idxFifo.contents (s.next i).indir.idxFifo =
    (List.range' (J.indices.used c + (s.indir.idxFifoPop (s.indirIn i) (s.spillInReady i)).toNat)
      (w + i.idxRsp.pValid.toNat - (J.indices.used c +
        (s.indir.idxFifoPop (s.indirIn i) (s.spillInReady i)).toNat))).map word := by
  have register : (s.next i).indir.idxFifo = P.indir.idxFifo.next s.indir.idxFifo
      s.indir.isectMstBlk i.idxRsp.pValid i.idxRsp.data
      (s.indir.idxFifoPop (s.indirIn i) (s.spillInReady i)) := by
    rw [fetches.indir_next]
    rfl
  have received := fetching.received
  have credit := fetching.credit
  have used := fetching.used
  have room : i.idxRsp.pValid = true → P.indir.idxFifo.full s.indir.idxFifo = false := by
    intro arrives
    have order := (cycle.arrives arrives).1
    rw [P.indir.idxFifo.lawful.full_eq_decide, fetching.queue, List.length_map,
      List.length_range', decide_eq_false_iff_not]
    omega
  have some : s.indir.idxFifoPop (s.indirIn i) (s.spillInReady i) = true →
      P.indir.idxFifo.empty s.indir.idxFifo = false := by
    intro pops
    have stocked := cycle.pop_stocked pops
    rw [P.indir.idxFifo.lawful.empty_eq_isEmpty, fetching.queue, List.isEmpty_eq_false_iff,
      Ne, List.map_eq_nil_iff, List.range'_eq_nil_iff]
    omega
  have law := P.indir.idxFifo.lawful.next s.indir.idxFifo _ i.idxRsp.data _ room some
  rw [register, fetching.unblocked, law, fetching.queue]
  cases pops : s.indir.idxFifoPop (s.indirIn i) (s.spillInReady i) with
  | false =>
    cases arrives : i.idxRsp.pValid with
    | false => simp
    | true =>
      obtain ⟨_, data⟩ := cycle.arrives arrives
      have more : w + 1 - J.indices.used c = w - J.indices.used c + 1 := by omega
      have place : J.indices.used c + 1 * (w - J.indices.used c) = w := by omega
      simp only [Bool.false_eq_true, if_false, if_true, Bool.toNat_true, Bool.toNat_false,
        Nat.add_zero]
      rw [more, List.range'_concat, List.map_append, place, data]
      rfl
  | true =>
    have stocked := cycle.pop_stocked pops
    have rest : (w - J.indices.used c) - 1 = w - (J.indices.used c + 1) := by omega
    cases arrives : i.idxRsp.pValid with
    | false =>
      simp only [if_true, Bool.toNat_true, Bool.false_eq_true, if_false, Bool.toNat_false,
        Nat.add_zero, List.append_nil]
      rw [← List.map_tail, List.tail_range', rest]
    | true =>
      obtain ⟨_, data⟩ := cycle.arrives arrives
      have more : w + 1 - (J.indices.used c + 1) = w - (J.indices.used c + 1) + 1 := by omega
      have place : J.indices.used c + 1 + 1 * (w - (J.indices.used c + 1)) = w := by omega
      simp only [if_true, Bool.toNat_true]
      rw [more, List.range'_concat, List.map_append, place, data, ← List.map_tail,
        List.tail_range', rest]
      rfl

theorem credit_next : (s.next i).indir.idxCredit.toNat +
    (f + (s.indir.idxQhs (s.indirIn i)).toNat - (J.indices.used c +
      (s.indir.idxFifoPop (s.indirIn i) (s.spillInReady i)).toNat)) = C.IndexCredits := by
  have register : (s.next i).indir.idxCredit = s.indir.idxCredit.next (Credit.initial _ false)
      (s.indir.idxFifoPop (s.indirIn i) (s.spillInReady i)) (s.indir.idxQhs (s.indirIn i))
      s.indir.isectMstBlk := by
    rw [fetches.indir_next]
    rfl
  have credit := fetching.credit
  have used := fetching.used
  have received := fetching.received
  have pops : s.indir.idxFifoPop (s.indirIn i) (s.spillInReady i) = true →
      J.indices.used c < w := cycle.pop_stocked
  have asks : s.indir.idxQhs (s.indirIn i) = true → f - J.indices.used c < C.IndexCredits :=
    fun fetched => (fetching.asks fetches cycle fetched).1
  have inRange : Credit.InRange s.indir.idxCredit
      (s.indir.idxFifoPop (s.indirIn i) (s.spillInReady i)) (s.indir.idxQhs (s.indirIn i)) := by
    constructor
    · intro take _
      have room := asks take
      omega
    · intro give _
      have some := pops give
      omega
  have law := Credit.toNat_next s.indir.idxCredit (Credit.initial _ false) inRange
  rw [register, fetching.unblocked]
  cases give : s.indir.idxFifoPop (s.indirIn i) (s.spillInReady i) with
  | false =>
    rw [give, Bool.toNat_false, Nat.add_zero] at law
    cases take : s.indir.idxQhs (s.indirIn i) with
    | false =>
      rw [take, Bool.toNat_false, Nat.add_zero] at law
      rw [Bool.toNat_false, Nat.add_zero, Nat.add_zero, law]
      exact credit
    | true =>
      rw [take, Bool.toNat_true] at law
      have room := asks take
      rw [Bool.toNat_true, Bool.toNat_false, Nat.add_zero]
      omega
  | true =>
    have some := pops give
    rw [give, Bool.toNat_true] at law
    cases take : s.indir.idxQhs (s.indirIn i) with
    | false =>
      rw [take, Bool.toNat_false, Nat.add_zero] at law
      rw [Bool.toNat_true, Bool.toNat_false, Nat.add_zero]
      omega
    | true =>
      rw [take, Bool.toNat_true] at law
      rw [Bool.toNat_true]
      omega

omit cycle in
/-- Unless it cleans up, the job neither blocks nor locks its requests. -/
theorem flags_next (working : s.indir.clnInit (s.indirIn i) (s.spillInReady i) = false) :
    (s.next i).indir.isectMstBlk = false ∧ (s.next i).indir.isectIdxLockin = false := by
  have block : (s.next i).indir.isectMstBlk = (C.IsectMaster && ffLoadClear s.indir.isectMstBlk true
      (s.indir.clnInit (s.indirIn i) (s.spillInReady i)) (s.indirIn i).cfgDone false) := by
    rw [fetches.indir_next]
    rfl
  have lock : (s.next i).indir.isectIdxLockin = (C.IsectMaster && ffLoadClear
      s.indir.isectIdxLockin true (s.indir.clnInit (s.indirIn i) (s.spillInReady i) &&
        s.indir.idxQvalid (s.indirIn i)) (s.indir.idxQhs (s.indirIn i)) false) := by
    rw [fetches.indir_next]
    rfl
  rw [block, lock, working, fetching.unblocked, fetching.unlocked]
  constructor <;> simp [ffLoadClear]

/-- **The cycle of a fetching job** that does not clean up counts the words asked for, the
words received and the indices used. -/
theorem next (working : s.indir.clnInit (s.indirIn i) (s.spillInReady i) = false) :
    Fetching J word (f + (s.indir.idxQhs (s.indirIn i)).toNat) (w + i.idxRsp.pValid.toNat)
      (c + (s.indir.bytecntEna (s.indirIn i) (s.spillInReady i)).toNat) (s.next i) := by
  have used := fetching.used_next fetches cycle
  have config : (s.next i).config = s.configNext i := rfl
  have arrives : i.idxRsp.pValid = true → w < f := fun here => (cycle.arrives here).1
  have asks : s.indir.idxQhs (s.indirIn i) = true → f < J.indices.words :=
    fun fetched => (fetching.asks fetches cycle fetched).2
  have pops : s.indir.idxFifoPop (s.indirIn i) (s.spillInReady i) = true →
      J.indices.used c < w := cycle.pop_stocked
  have takes : s.indir.bytecntEna (s.indirIn i) (s.spillInReady i) = true →
      c ≤ J.indices.bound := fun taken => fetching.more (cycle.stocked taken)
  constructor
  case regs =>
    have register : (s.next i).regs = if s.config.done then s.regsD i else s.regs := rfl
    rw [register, cycle.running, if_neg Bool.false_ne_true, fetching.regs]
  case indir =>
    rw [config, configNext, cycle.running, if_neg Bool.false_ne_true]
    split
    · exact fetching.indir
    · exact fetching.indir
  case dims =>
    rw [config, configNext, cycle.running, if_neg Bool.false_ne_true]
    split
    · exact fetching.dims
    · exact fetching.dims
  case pointer => exact fetching.pointer_next fetches cycle
  case upper => exact fetching.upper_next i
  case index => exact fetching.index_next fetches cycle
  case baseLast => exact fetching.baseLast_next fetches cycle
  case inflight => exact fetching.inflight_next fetches cycle
  case bytecnt => exact fetching.bytecnt_next fetches cycle
  case queue =>
    rw [used]
    exact fetching.queue_next fetches cycle
  case credit =>
    rw [used]
    exact fetching.credit_next fetches cycle
  case used =>
    have before := fetching.used
    rw [used]
    cases popped : s.indir.idxFifoPop (s.indirIn i) (s.spillInReady i) with
    | false =>
      rw [Bool.toNat_false]
      omega
    | true =>
      have some := pops popped
      rw [Bool.toNat_true]
      omega
  case received =>
    have before := fetching.received
    cases pushed : i.idxRsp.pValid with
    | false =>
      rw [Bool.toNat_false]
      omega
    | true =>
      have order := arrives pushed
      rw [Bool.toNat_true]
      omega
  case asked =>
    have before := fetching.asked
    cases fetched : s.indir.idxQhs (s.indirIn i) with
    | false => exact before
    | true => exact asks fetched
  case within =>
    have before := fetching.within
    cases taken : s.indir.bytecntEna (s.indirIn i) (s.spillInReady i) with
    | false => exact before
    | true => exact Nat.succ_le_succ (takes taken)
  case unblocked => exact (fetching.flags_next fetches working).1
  case unlocked => exact (fetching.flags_next fetches working).2

end Fetching

end AddrGen

end SnitchCluster.Ssr
