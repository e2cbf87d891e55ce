/-
# Ssr.Gather -- an indirect job gathers the elements its indices name

An indirect stream that does not intersect, from launch to end: it fetches the words its
index array overlaps, each once and in order, and emits for every index the pointer to
the element it names, the last one flagged.  Indices are as wide as the index registers
of the stream (`Job.pointerOf`), however wide they are in memory.

The memory answers the requests for words in order, whenever it likes (`Served`).
-/
import SnitchCluster.Ssr.Fetch
import SnitchCluster.Ssr.LoopNest

namespace SnitchCluster.Ssr

open Theory Theory.Odometer

variable {C : Cfg}

/-! ## What a gather is to do -/

/-- The word of the memory an address is in. -/
def wordAt (a : BitVec C.PointerWidth) : BitVec C.PointerWidth :=
  a &&& (BitVec.allOnes _ <<< C.BytecntWidth)

namespace Job

variable (J : Job C) (mem : BitVec C.PointerWidth → BitVec C.DataWidth)

/-- Where an index is. -/
def entryAddr (j : Nat) : BitVec C.PointerWidth := J.pointer + BitVec.ofNat _ (j * 2 ^ J.size)

/-- An index, as the memory holds it. -/
def entry (j : Nat) : Nat :=
  (mem (wordAt (J.entryAddr j))).toNat / 2 ^ (8 * ((J.entryAddr j).toNat % C.WordBytes)) %
    2 ^ (8 * 2 ^ J.size)

/-- The element an index names, were all its bits kept. -/
def widePointerOf (j : Nat) : BitVec C.PointerWidth :=
  J.regs.idxBase +
    ((BitVec.ofNat _ (J.entry mem j) <<< C.BytecntWidth) <<< J.regs.idxShift.toNat)

/-- The element an index of the stream's width names. -/
def pointerOf (j : Nat) : BitVec C.PointerWidth :=
  J.regs.idxBase + ((BitVec.ofNat _ (J.entry mem j % 2 ^ C.IndexWidth) <<< C.BytecntWidth) <<<
    J.regs.idxShift.toNat)

/-- How many words the index array overlaps. -/
def wordCount : Nat :=
  (J.pointer.toNat % C.WordBytes + (J.indices.bound + 1) * 2 ^ J.size + (C.WordBytes - 1)) /
    C.WordBytes

/-- The words the index array overlaps, in order. -/
def indexWords : List (BitVec C.PointerWidth) :=
  (List.range J.wordCount).map fun w => wordAt J.pointer + BitVec.ofNat _ (C.WordBytes * w)

/-- The pointers of a gather, with their last flags. -/
def gathered : List (BitVec C.PointerWidth × Bool) :=
  flagLast ((List.range (J.indices.bound + 1)).map (J.pointerOf mem))

end Job

/-! ### Addresses and words -/

theorem toNat_wordAt (a : BitVec C.PointerWidth) :
    (wordAt a).toNat = a.toNat / C.WordBytes * C.WordBytes := by
  have shifts : wordAt a = (a >>> C.BytecntWidth) <<< C.BytecntWidth := by
    apply BitVec.eq_of_getLsbD_eq
    intro k inside
    rw [wordAt, BitVec.getLsbD_and, BitVec.getLsbD_shiftLeft, BitVec.getLsbD_shiftLeft,
      BitVec.getLsbD_ushiftRight, BitVec.getLsbD_allOnes, decide_eq_true inside]
    by_cases low : k < C.BytecntWidth
    · simp [low]
    · have high : C.BytecntWidth + (k - C.BytecntWidth) = k := by omega
      have below : k - C.BytecntWidth < C.PointerWidth := by omega
      simp [low, high, below]
  have bound := a.isLt
  rw [shifts, BitVec.toNat_shiftLeft, BitVec.toNat_ushiftRight, Nat.shiftLeft_eq,
    Nat.shiftRight_eq_div_pow]
  exact Nat.mod_eq_of_lt (Nat.lt_of_le_of_lt (Nat.div_mul_le_self _ _) bound)

/-- Whole words do not change the place in a word. -/
theorem wordAt_add (a : BitVec C.PointerWidth) (w : Nat) :
    wordAt (a + BitVec.ofNat _ (C.WordBytes * w)) =
      wordAt a + BitVec.ofNat _ (C.WordBytes * w) := by
  have split : 2 ^ C.PointerWidth = C.WordBytes * 2 ^ (C.PointerWidth - C.BytecntWidth) := by
    rw [Cfg.WordBytes, ← Nat.pow_add, Nat.add_sub_cancel' C.bytecnt_le]
  have positive : 0 < C.WordBytes := Nat.two_pow_pos _
  apply BitVec.eq_of_toNat_eq
  rw [toNat_wordAt, BitVec.toNat_add, BitVec.toNat_add, toNat_wordAt, BitVec.toNat_ofNat,
    Nat.add_mod_mod, Nat.add_mod_mod, split, Nat.mod_mul_right_div_self,
    Nat.add_mul_div_left _ _ positive, Nat.mul_comm _ C.WordBytes, ← Nat.mul_mod_mul_left,
    Nat.mul_add, Nat.mul_comm (a.toNat / C.WordBytes)]

namespace Job.Fetches

variable {J : Job C} (fetches : J.Fetches)

include fetches

theorem wordCount_eq : J.wordCount = J.indices.words := by
  have small := fetches.size_le
  have inside := fetches.inside
  have offset := fetches.offset_eq
  have bytes : C.WordBytes = 8 := fetches.word_bytes
  have sizes : J.size = 0 ∨ J.size = 1 ∨ J.size = 2 ∨ J.size = 3 := by omega
  rw [Job.wordCount, Packed.words, Packed.wordOf, fetches.per_eq, bytes, offset]
  rcases sizes with size | size | size | size <;> rw [size] at inside ⊢ <;> omega

/-- The place of an index in its word. -/
theorem entryAddr_offset (j : Nat) :
    (J.entryAddr j).toNat % C.WordBytes = J.indices.slotOf j * 2 ^ J.size := by
  have bytes : C.WordBytes = 8 := fetches.word_bytes
  have whole : 8 ∣ 2 ^ C.PointerWidth := fetches.word_bytes ▸ Nat.pow_dvd_pow 2 C.bytecnt_le
  rw [Job.entryAddr, BitVec.toNat_add, BitVec.toNat_ofNat, Nat.add_mod_mod, bytes,
    Nat.mod_mod_of_dvd _ whole, Nat.add_mod, fetches.offset_eq,
    bytes_of_slot fetches.size_le fetches.inside, Packed.slotOf, fetches.per_eq]

/-- The word of an index. -/
theorem wordAt_entryAddr (j : Nat) : wordAt (J.entryAddr j) = J.wordAddr (J.indices.wordOf j) := by
  have small := fetches.size_le
  have inside := fetches.inside
  have offset := fetches.offset_eq
  have bytes : C.WordBytes = 8 := fetches.word_bytes
  have split : 2 ^ C.PointerWidth = 8 * 2 ^ (C.PointerWidth - C.BytecntWidth) := by
    rw [← fetches.word_bytes, ← Nat.pow_add, Nat.add_sub_cancel' C.bytecnt_le]
  have word : (J.pointer.toNat + j * 2 ^ J.size) / 8 =
      J.pointer.toNat / 8 + J.indices.wordOf j := by
    have sizes : J.size = 0 ∨ J.size = 1 ∨ J.size = 2 ∨ J.size = 3 := by omega
    rw [Packed.wordOf, fetches.per_eq]
    rcases sizes with size | size | size | size <;> rw [size] at inside offset ⊢ <;> omega
  have start : (J.pointer &&& (BitVec.allOnes _ <<< C.BytecntWidth)).toNat =
      J.pointer.toNat / 8 * 8 := by
    have law := toNat_wordAt J.pointer
    rwa [bytes] at law
  apply BitVec.eq_of_toNat_eq
  rw [toNat_wordAt, Job.entryAddr, Job.wordAddr, BitVec.toNat_add, BitVec.toNat_add,
    BitVec.toNat_ofNat, BitVec.toNat_ofNat, Nat.add_mod_mod, Nat.add_mod_mod, start, bytes, split,
    Nat.mod_mul_right_div_self, word, Nat.mul_comm _ 8, ← Nat.mul_mod_mul_left, Nat.mul_add,
    Nat.mul_comm (J.pointer.toNat / 8)]

theorem indexWords_eq : J.indexWords = (List.range J.indices.words).map J.wordAddr := by
  rw [Job.indexWords, fetches.wordCount_eq]
  rfl

end Job.Fetches

/-- The mask cuts an index out. -/
theorem Indirector.toNat_and_indexMask (i : IndirIn C) (x : BitVec C.DataWidth) :
    (x &&& indexMask i).toNat = x.toNat % 2 ^ (8 * 2 ^ i.cfgSize.toNat) := by
  have amount : 8 <<< i.cfgSize.toNat = 8 * 2 ^ i.cfgSize.toNat := Nat.shiftLeft_eq _ _
  apply Nat.eq_of_testBit_eq
  intro k
  rw [Nat.testBit_mod_two_pow, BitVec.testBit_toNat, BitVec.testBit_toNat, BitVec.getLsbD_and,
    indexMask, BitVec.getLsbD_not, BitVec.getLsbD_shiftLeft, amount, BitVec.getLsbD_allOnes]
  by_cases inside : k < C.DataWidth
  · by_cases low : k < 8 * 2 ^ i.cfgSize.toNat
    · simp [inside, low]
    · have below : k - 8 * 2 ^ i.cfgSize.toNat < C.DataWidth := by omega
      simp [inside, low, below]
  · have none := BitVec.getLsbD_of_ge x k (Nat.not_lt.mp inside)
    simp [none]

namespace AddrGen

variable {P : AgParts C}

/-- The words of a job's index array, in a memory. -/
def wordIn (J : Job C) (mem : BitVec C.PointerWidth → BitVec C.DataWidth) (w : Nat) :
    BitVec C.DataWidth := mem (J.wordAddr w)

section Emission

variable {J : Job C} {mem : BitVec C.PointerWidth → BitVec C.DataWidth} {f w c : Nat}
  {s : AddrGen P} (fetching : Fetching J (wordIn J mem) f w c s) (fetches : J.Fetches)

include fetching

/-- An index is at hand while words are. -/
theorem Fetching.idxSerValid_iff : s.indir.idxSerValid = true ↔ J.indices.used c < w := by
  rw [Indirector.idxSerValid, Bool.not_eq_true', P.indir.idxFifo.lawful.empty_eq_isEmpty,
    fetching.queue, List.isEmpty_eq_false_iff, Ne, List.map_eq_nil_iff, List.range'_eq_nil_iff]
  omega

/-- The next word of the array is asked for. -/
theorem Fetching.addr_eq (i : AgIn C) : (s.indir.idxReq (s.indirIn i)).addr = J.wordAddr f := by
  show wordAt s.pointer = _
  rw [fetching.pointer, wordAt_add]
  rfl

include fetches

/-- The index cut out is the one in memory, as far as the index registers hold it. -/
theorem Fetching.idxSerOut_eq (i : AgIn C) (stocked : J.indices.used c < w) :
    s.indir.idxSerOut (s.indirIn i) = BitVec.ofNat _ (J.entry mem c) := by
  have more := fetching.more stocked
  have size : (s.indirIn i).cfgSize.toNat = J.size := by
    show s.regs.idxSize.toNat = _
    rw [fetching.regs]
    rfl
  have count : w - J.indices.used c = w - J.indices.used c - 1 + 1 := by omega
  have queue := fetching.queue
  rw [count, List.range'_succ, List.map_cons, J.indices.used_of_le more] at queue
  have head := P.indir.idxFifo.lawful.data_head _ _ _ queue
  apply BitVec.eq_of_toNat_eq
  rw [Indirector.idxSerOut, BitVec.toNat_setWidth, Indirector.toNat_and_indexMask, size, head,
    BitVec.toNat_ushiftRight, Nat.shiftRight_eq_div_pow, fetching.bytecnt, BitVec.toNat_ofNat,
    Job.entry, fetches.entryAddr_offset, fetches.wordAt_entryAddr]
  rfl

/-- The pointer of an index that is not counted. -/
theorem Fetching.memPointer_eq (i : AgIn C) (counts : Indirector.master (s.indirIn i) = false)
    (stocked : J.indices.used c < w) : s.indir.memPointer (s.indirIn i) = J.pointerOf mem c := by
  have index : s.indir.memIdx (s.indirIn i) = s.indir.idxSerOut (s.indirIn i) := by
    rw [Indirector.memIdx, fetches.fetches, counts]
    rfl
  have shift : (s.indirIn i).cfgShift = J.regs.idxShift := by
    show s.regs.idxShift = _
    rw [fetching.regs]
  have base : (s.indirIn i).cfgBase = J.regs.idxBase := by
    show s.regs.idxBase = _
    rw [fetching.regs]
  have wide : (BitVec.ofNat C.IndexWidth (J.entry mem c)).setWidth C.PointerWidth =
      BitVec.ofNat _ (J.entry mem c % 2 ^ C.IndexWidth) := by
    apply BitVec.eq_of_toNat_eq
    rw [BitVec.toNat_setWidth, BitVec.toNat_ofNat, BitVec.toNat_ofNat]
  rw [Indirector.memPointer, index, fetching.idxSerOut_eq fetches i stocked, shift, base, wide]
  rfl

end Emission

/-! ## The run of a gather -/

/-- What a cycle of a gather shows: a request for index words, the arrival of one, a
pointer of the indirector with its last flag, an element on the memory port. -/
structure GatherObs (C : Cfg) where
  fetch : Option (BitVec C.PointerWidth)
  arrival : Bool
  pointer : Option (BitVec C.PointerWidth × Bool)
  element : Option (OutElem C)

def gatherMachine (P : AgParts C) : Machine (AddrGen P) (AgIn C) (GatherObs C) where
  obs s i :=
    { fetch := if s.indir.idxQhs (s.indirIn i) then some (s.indir.idxReq (s.indirIn i)).addr
        else none
      arrival := i.idxRsp.pValid
      pointer :=
        if s.indir.memHs (s.indirIn i) (s.spillInReady i) then
          some (s.indir.memPointer (s.indirIn i),
            s.indir.memLast (s.indirIn i) (s.spillInReady i))
        else none
      element := if s.memHs i then some (s.memElem i) else none }
  next := next

/-- The words asked for. -/
def fetched (past : List (GatherObs C)) : List (BitVec C.PointerWidth) :=
  past.filterMap GatherObs.fetch

/-- How many words have arrived. -/
def arrived (past : List (GatherObs C)) : Nat := past.countP GatherObs.arrival

/-- The pointers the indirector has emitted. -/
def pointed (past : List (GatherObs C)) : List (BitVec C.PointerWidth × Bool) :=
  past.filterMap GatherObs.pointer

/-- The elements that have left. -/
def sent (past : List (GatherObs C)) : List (OutElem C) := past.filterMap GatherObs.element

/-- The memory answers the requests for words in order. -/
def Served (mem : BitVec C.PointerWidth → BitVec C.DataWidth) (past : List (GatherObs C))
    (i : AgIn C) : Prop :=
  i.idxRsp.pValid = true →
    ∃ a, (fetched past)[arrived past]? = some a ∧ i.idxRsp.data = mem a

section

variable (past : List (GatherObs C)) (s : AddrGen P) (i : AgIn C)

include past s i

theorem fetched_concat : fetched (past ++ [(gatherMachine P).obs s i]) = fetched past ++
      if s.indir.idxQhs (s.indirIn i) then [(s.indir.idxReq (s.indirIn i)).addr] else [] := by
  rw [fetched, filterMap_concat]
  show _ ++ Option.toList (if _ then _ else _) = _
  split <;> rfl

theorem arrived_concat :
    arrived (past ++ [(gatherMachine P).obs s i]) = arrived past + i.idxRsp.pValid.toNat := by
  rw [arrived, List.countP_append, List.countP_singleton]
  show _ + (if i.idxRsp.pValid = true then 1 else 0) = _
  cases i.idxRsp.pValid <;> rfl

theorem pointed_concat : pointed (past ++ [(gatherMachine P).obs s i]) = pointed past ++
      if s.indir.memHs (s.indirIn i) (s.spillInReady i) then
        [(s.indir.memPointer (s.indirIn i), s.indir.memLast (s.indirIn i) (s.spillInReady i))]
      else [] := by
  rw [pointed, filterMap_concat]
  show _ ++ Option.toList (if _ then _ else _) = _
  split <;> rfl

theorem sent_concat : sent (past ++ [(gatherMachine P).obs s i]) = sent past ++
      if s.memHs i then [s.memElem i] else [] := by
  rw [sent, filterMap_concat]
  show _ ++ Option.toList (if _ then _ else _) = _
  split <;> rfl

end

/-! ### A stream that does not intersect -/

/-- The job is no intersection master. -/
def Alone (J : Job C) : Prop := C.IsectMaster = true → J.config.dims.getLsbD 1 = false

/-- The indirector has no part in an intersection. -/
structure Unpaired (merge : Bool) {Q : IndirParts C} (n : Indirector Q) : Prop where
  slvSpill : Q.slvSpill.contents n.slvSpill = []
  doneFifo : Q.doneFifo.contents n.doneFifo = []
  domp : n.isectMstDomp = false
  dom : n.isectMstDom = false
  doi : merge = false → n.isectMstDoi = false

section Alone

variable {J : Job C} {mem : BitVec C.PointerWidth → BitVec C.DataWidth} {f w c : Nat}
  {s : AddrGen P} (fetching : Fetching J (wordIn J mem) f w c s) (fetches : J.Fetches)
  (alone : Alone J)

include fetching alone

theorem Fetching.master_eq (i : AgIn C) : Indirector.master (s.indirIn i) = false := by
  rw [Indirector.master]
  show (C.IsectMaster && (s.config.indir && s.config.dims.getLsbD 1)) = false
  rw [fetching.dims]
  cases able : C.IsectMaster with
  | false => rfl
  | true => rw [alone able, Bool.and_false, Bool.and_false]

theorem Fetching.isectMstHs_eq (i : AgIn C) (memReady : Bool) :
    s.indir.isectMstHs (s.indirIn i) memReady = false := by
  rw [Indirector.isectMstHs, Indirector.isectMstReq, fetching.master_eq alone, Bool.and_false,
    if_neg Bool.false_ne_true]
  exact (congrArg (· && _) (Bool.and_false _)).trans (Bool.false_and _)

theorem Fetching.clnInit_eq (i : AgIn C) (memReady : Bool) :
    s.indir.clnInit (s.indirIn i) memReady = false := by
  rw [Indirector.clnInit, fetching.isectMstHs_eq alone, Bool.false_and]

include fetches

theorem Fetching.memDone_eq (i : AgIn C) : s.indir.memDone (s.indirIn i) = false := by
  rw [Indirector.memDone, fetches.fetches, if_neg Bool.false_ne_true, fetching.master_eq alone,
    Bool.false_and]

theorem Fetching.memHs_eq (i : AgIn C) (memReady : Bool) :
    s.indir.memHs (s.indirIn i) memReady = (s.indir.idxSerValid && memReady) := by
  rw [Indirector.memHs, Indirector.memValid, fetches.fetches, if_neg Bool.false_ne_true,
    fetching.master_eq alone, if_neg Bool.false_ne_true]

/-- Every pointer emitted uses an index. -/
theorem Fetching.bytecntEna_eq (i : AgIn C) (memReady : Bool) :
    s.indir.bytecntEna (s.indirIn i) memReady = s.indir.memHs (s.indirIn i) memReady := by
  rw [Indirector.bytecntEna, fetches.fetches, if_neg Bool.false_ne_true,
    fetching.memDone_eq fetches alone, Indirector.memZero, Indirector.memSkip, fetches.fetches,
    fetching.master_eq alone]
  simp

theorem Fetching.memLast_eq (running : s.config.done = false) (i : AgIn C) (memReady : Bool)
    (emits : s.indir.memHs (s.indirIn i) memReady = true) :
    s.indir.memLast (s.indirIn i) memReady = decide (c = J.indices.bound) := by
  have stocked : J.indices.used c < w := by
    rw [fetching.memHs_eq fetches alone, Bool.and_eq_true] at emits
    exact fetching.idxSerValid_iff.mp emits.1
  rw [Indirector.memLast, fetches.fetches, fetching.master_eq alone,
    fetching.idxSerLast_eq fetches running i memReady stocked,
    fetching.bytecntEna_eq fetches alone, emits, Bool.not_false, Bool.true_and, Bool.true_and,
    Bool.true_and]

theorem Fetching.unpaired_next (unpaired : Unpaired J.regs.idxMerge s.indir) (i : AgIn C) :
    Unpaired J.regs.idxMerge (s.next i).indir := by
  have init := fetching.clnInit_eq alone i (s.spillInReady i)
  have merge : (s.indirIn i).cfgMerge = J.regs.idxMerge := by
    show s.regs.idxMerge = _
    rw [fetching.regs]
  rw [fetches.indir_next]
  refine ⟨unpaired.slvSpill, unpaired.doneFifo, ?_, ?_, ?_⟩
  · simp [Indirector.nextFetch, init, unpaired.domp, ffLoadClear]
  · simp [Indirector.nextFetch, init, unpaired.domp, unpaired.dom, ffLoadClear]
  · intro plain
    simp [Indirector.nextFetch, init, merge, plain, unpaired.doi plain, ffLoadClear]

end Alone

/-! ### What holds along the run -/

/-- A gather after the cycles of `past`. -/
structure Gathering (J : Job C) (mem : BitVec C.PointerWidth → BitVec C.DataWidth)
    (past : List (GatherObs C)) (s : AddrGen P) : Prop where
  fetching : Fetching J (wordIn J mem) (fetched past).length (arrived past) (pointed past).length s
  words : fetched past = (List.range (fetched past).length).map J.wordAddr
  pointers : pointed past <+: J.gathered mem
  passed : pointed past = (sent past).map mark ++ s.queue.map mark
  harmless : ∀ x ∈ s.queue, x.kill = false
  unpaired : Unpaired J.regs.idxMerge s.indir
  running : s.config.done = false → ∀ x ∈ sent past, x.last = false
  ended : s.config.done = true → ∃ before x, sent past = before ++ [x] ∧ x.last = true

theorem length_ite {α : Type} (b : Bool) (x : α) : (if b then [x] else []).length = b.toNat := by
  cases b <;> rfl

theorem length_gathered (J : Job C) (mem : BitVec C.PointerWidth → BitVec C.DataWidth) :
    (J.gathered mem).length = J.indices.bound + 1 := by
  have lengths := congrArg List.length
    (map_fst_flagLast ((List.range (J.indices.bound + 1)).map (J.pointerOf mem)))
  rwa [List.length_map, List.length_map, List.length_range] at lengths

/-- The pointers of a gather, one by one. -/
theorem getElem_gathered (J : Job C) (mem : BitVec C.PointerWidth → BitVec C.DataWidth) {c : Nat}
    (more : c ≤ J.indices.bound) :
    (J.gathered mem)[c]? = some (J.pointerOf mem c, decide (c = J.indices.bound)) := by
  have inside : c < ((List.range (J.indices.bound + 1)).map (J.pointerOf mem)).length := by
    rw [List.length_map, List.length_range]
    omega
  rw [Job.gathered, getElem_flagLast inside, List.getElem_map, List.getElem_range, List.length_map,
    List.length_range]
  simp

namespace Gathering

variable {J : Job C} {mem : BitVec C.PointerWidth → BitVec C.DataWidth} {past : List (GatherObs C)}
  {s : AddrGen P} (gathering : Gathering J mem past s) (fetches : J.Fetches) (alone : Alone J)
  (running : s.config.done = false) {i : AgIn C}

include gathering

theorem words_next : fetched (past ++ [(gatherMachine P).obs s i]) =
    (List.range (fetched (past ++ [(gatherMachine P).obs s i])).length).map J.wordAddr := by
  have words := gathering.words
  rw [fetched_concat]
  cases s.indir.idxQhs (s.indirIn i) with
  | false =>
    rw [if_neg Bool.false_ne_true, List.append_nil]
    exact words
  | true =>
    rw [if_pos rfl, List.length_append, List.length_singleton, List.range_succ, List.map_append,
      List.map_singleton, gathering.fetching.addr_eq, ← words]

/-- With the last element everything has been emitted. -/
theorem all_of_done (done : s.config.done = true) :
    pointed past = J.gathered mem ∧ s.queue = [] := by
  obtain ⟨before, x, left, flag⟩ := gathering.ended done
  obtain ⟨rest, whole⟩ := gathering.pointers
  have place : before.map mark ++ mark x :: (s.queue.map mark ++ rest) = J.gathered mem := by
    rw [← whole, gathering.passed, left, List.map_append, List.append_assoc, List.append_assoc]
    rfl
  have nothing := List.append_eq_nil_iff.mp (nil_of_flagged place flag)
  rw [nothing.2, List.append_nil] at whole
  exact ⟨whole, List.map_eq_nil_iff.mp nothing.1⟩

include fetches

/-- At the end of a gather the words have been fetched and used up. -/
theorem at_end (done : s.config.done = true) :
    fetched past = J.indexWords ∧ P.indir.idxFifo.contents s.indir.idxFifo = [] ∧
      s.indir.idxCredit.toNat = C.IndexCredits ∧ ∀ k, s.index k = 0 := by
  have fetching := gathering.fetching
  have used := fetching.used
  have received := fetching.received
  have asked := fetching.asked
  have queue := fetching.queue
  have credit := fetching.credit
  have index := fetching.index
  rw [(gathering.all_of_done done).1, length_gathered, Packed.used_all] at used queue credit
  have all : (fetched past).length = J.indices.words := by omega
  have none : arrived past - J.indices.words = 0 := by omega
  rw [none] at queue
  rw [all, Nat.sub_self, Nat.add_zero] at credit
  rw [if_pos all] at index
  refine ⟨?_, queue, credit, ?_⟩
  · rw [gathering.words, all, fetches.indexWords_eq]
  · intro k
    by_cases at_base : k = base C
    · rw [at_base, index]
    · exact fetching.upper k at_base

include alone

theorem noKill (i : AgIn C) : NoKill s i := by
  refine ⟨gathering.harmless, ?_⟩
  rw [spillInData, if_pos gathering.fetching.indir]
  exact gathering.fetching.memDone_eq fetches alone i

theorem stocked {memReady : Bool} (emits : s.indir.memHs (s.indirIn i) memReady = true) :
    J.indices.used (pointed past).length < arrived past := by
  rw [gathering.fetching.memHs_eq fetches alone, Bool.and_eq_true] at emits
  exact gathering.fetching.idxSerValid_iff.mp emits.1

/-- Pointers pass through the output stage in order. -/
theorem passed_next : pointed (past ++ [(gatherMachine P).obs s i]) =
    (sent (past ++ [(gatherMachine P).obs s i])).map mark ++ (s.next i).queue.map mark := by
  have valid : (s.spillInValid i && s.spillInReady i) =
      s.indir.memHs (s.indirIn i) (s.spillInReady i) := by
    rw [spillInValid, if_pos gathering.fetching.indir]
    rfl
  have law := congrArg (List.map mark)
    ((gathering.noKill fetches alone i).queue_next fetches.indirection)
  rw [valid, List.map_append, List.map_append, spillInData,
    if_pos gathering.fetching.indir] at law
  rw [pointed_concat, sent_concat, gathering.passed, List.map_append, List.append_assoc,
    List.append_assoc, ← law]
  congr 2
  split <;> rfl

theorem harmless_next : ∀ x ∈ (s.next i).queue, x.kill = false := by
  intro x member
  have law := (gathering.noKill fetches alone i).queue_next fetches.indirection
  have held : x ∈ s.queue ++ (if s.spillInValid i && s.spillInReady i then
      [s.spillInData i (s.indir.memLast (s.indirIn i) (s.spillInReady i))] else []) := by
    rw [law]
    exact List.mem_append_right _ member
  rcases List.mem_append.mp held with old | new
  · exact gathering.harmless x old
  · split at new
    · rw [List.mem_singleton.mp new, spillInData, if_pos gathering.fetching.indir]
      exact gathering.fetching.memDone_eq fetches alone i
    · exact absurd new List.not_mem_nil

include running

theorem cycle (served : Served mem past i) :
    FetchCycle J (wordIn J mem) (fetched past).length (arrived past) (pointed past).length s i where
  running := running
  alive := (gathering.noKill fetches alone i).none
  arrives := by
    intro arrives
    obtain ⟨a, asked, data⟩ := served arrives
    have inside := (List.getElem?_eq_some_iff.mp asked).1
    refine ⟨inside, ?_⟩
    rw [gathering.words, List.getElem?_map, List.getElem?_range inside] at asked
    rw [data, ← Option.some.inj asked]
    rfl
  stocked := by
    intro taken
    rw [gathering.fetching.bytecntEna_eq fetches alone] at taken
    exact gathering.stocked fetches alone taken

/-- A pointer emitted is the next one of the gather. -/
theorem pointers_next : pointed (past ++ [(gatherMachine P).obs s i]) <+: J.gathered mem := by
  rw [pointed_concat]
  cases emits : s.indir.memHs (s.indirIn i) (s.spillInReady i) with
  | false =>
    rw [if_neg Bool.false_ne_true, List.append_nil]
    exact gathering.pointers
  | true =>
    have stocked := gathering.stocked fetches alone emits
    have next := getElem_gathered J mem (gathering.fetching.more stocked)
    rw [if_pos rfl, gathering.fetching.memPointer_eq fetches i
      (gathering.fetching.master_eq alone i) stocked,
      gathering.fetching.memLast_eq fetches alone running i _ emits]
    obtain ⟨rest, whole⟩ := gathering.pointers
    rw [← whole, List.getElem?_append_right (Nat.le_refl _), Nat.sub_self] at next
    cases rest with
    | nil => exact absurd next (by simp)
    | cons x rest =>
      rw [← whole, ← Option.some.inj next]
      exact ⟨rest, List.append_assoc _ _ _⟩

/-- **The cycle of a gather.** -/
theorem next (served : Served mem past i) :
    Gathering J mem (past ++ [(gatherMachine P).obs s i]) (s.next i) := by
  have config := (gathering.noKill fetches alone i).config_next running
  constructor
  case fetching =>
    have after := gathering.fetching.next fetches (gathering.cycle fetches alone running served)
      (gathering.fetching.clnInit_eq alone i _)
    rw [gathering.fetching.bytecntEna_eq fetches alone] at after
    rw [fetched_concat, arrived_concat, pointed_concat, List.length_append, List.length_append,
      length_ite, length_ite]
    exact after
  case words => exact gathering.words_next
  case pointers => exact gathering.pointers_next fetches alone running
  case passed => exact gathering.passed_next fetches alone
  case harmless => exact gathering.harmless_next fetches alone
  case unpaired => exact gathering.fetching.unpaired_next fetches alone gathering.unpaired i
  case running =>
    intro goes x member
    rw [config] at goes
    rw [sent_concat] at member
    rcases List.mem_append.mp member with old | new
    · exact gathering.running running x old
    · split at new
      · rename_i leaves
        rw [List.mem_singleton.mp new]
        rw [leaves, Bool.true_and] at goes
        exact goes
      · exact absurd new List.not_mem_nil
  case ended =>
    intro ends
    rw [config, Bool.and_eq_true] at ends
    exact ⟨sent past, s.memElem i, by rw [sent_concat, if_pos ends.1], ends.2⟩

end Gathering

/-! ### Between two gathers -/

/-- A stream at rest: it can take up a gather. -/
structure Ready (s : AddrGen P) : Prop extends Rested s where
  credit : s.indir.idxCredit.toNat = C.IndexCredits
  unlocked : s.indir.isectIdxLockin = false

namespace Ready

variable {s : AddrGen P} (ready : Ready s) (fetches : C.IsectSlave = false) (i : AgIn C)

include ready fetches

/-- A stream at rest asks for nothing. -/
theorem idxQhs_eq : s.indir.idxQhs (s.indirIn i) = false := by
  rw [Indirector.idxQhs, Indirector.idxQvalid, fetches, if_neg Bool.false_ne_true, ready.unlocked,
    Indirector.natitEna]
  have all : (s.indirIn i).natitDone = true := by
    show (_ || s.config.done) = true
    rw [ready.done, Bool.or_true]
  rw [all, Bool.not_true, Bool.and_false]
  rfl

theorem next_indir : (s.next i).indir.idxCredit.toNat = C.IndexCredits ∧
    (s.next i).indir.isectIdxLockin = false ∧
    (C.Indirection = true → (s.next i).indir.isectMstBlk = false ∧
      (s.next i).indir.idxBytecnt = (s.pointerD i).setWidth _) := by
  have register : (s.next i).indir =
      if C.Indirection then s.indir.next (s.indirIn i) (s.spillInReady i) else s.indir := rfl
  have hs := ready.quiet.isectMstHs (s.indirIn i) (s.spillInReady i)
  have asks := ready.idxQhs_eq fetches i
  have pops := ready.quiet.idxFifoPop fetches (s.indirIn i) (s.spillInReady i)
  have init : s.indir.clnInit (s.indirIn i) (s.spillInReady i) = false := by
    rw [Indirector.clnInit, hs, Bool.false_and]
  have done : (s.indirIn i).cfgDone = true := ready.done
  rw [register]
  cases indirection : C.Indirection with
  | false => exact ⟨ready.credit, ready.unlocked, Bool.noConfusion⟩
  | true =>
    rw [if_pos rfl, Indirector.next, fetches, if_neg Bool.false_ne_true]
    refine ⟨?_, ?_, fun _ => ⟨?_, ?_⟩⟩
    · show (Credit.next _ _ (s.indir.idxFifoPop _ _) (s.indir.idxQhs _) _).toNat = _
      rw [pops, asks]
      cases s.indir.isectMstBlk with
      | true => exact Credit.toNat_initial _
      | false => exact ready.credit
    · simp [Indirector.nextFetch, init, ready.unlocked, ffLoadClear]
    · simp [Indirector.nextFetch, done, ffLoadClear]
    · show s.indir.idxBytecntNext (s.indirIn i) (s.spillInReady i) = _
      rw [Indirector.idxBytecntNext, done, if_pos rfl]
      rfl

end Ready

/-- What is known of the first cycle of a job. -/
theorem job_of_started {s : AddrGen P} {i : AgIn C} {J : Job C} (starts : s.started i = some J) :
    (s.next i).config.done = false ∧ (s.next i).job = J := by
  rw [started] at starts
  split at starts
  · rename_i begins
    rw [Bool.and_eq_true, Bool.not_eq_true'] at begins
    exact ⟨begins.2, Option.some.inj starts⟩
  · exact absurd starts (by simp)

section

variable {s : AddrGen P} (ready : Ready s) {i : AgIn C} (silent : i.idxRsp.pValid = false)
    {J : Job C} (starts : s.started i = some J) (fetches : J.Fetches)

include ready silent starts fetches

/-- A stream at rest that takes up a job has nothing fetched and nothing used. -/
theorem Ready.fetching (word : Nat → BitVec C.DataWidth) : Fetching J word 0 0 0 (s.next i) := by
  obtain ⟨_, job⟩ := job_of_started starts
  obtain ⟨base, last⟩ := ready.marks_next i
  obtain ⟨credit, unlocked, fetch⟩ := ready.next_indir fetches.fetches i
  obtain ⟨unblocked, bytecnt⟩ := fetch fetches.indirection
  have quiet := ready.quiet_next silent fun slave =>
    absurd (fetches.fetches ▸ slave) Bool.false_ne_true
  have config : (s.next i).config = J.config := congrArg Job.config job
  have pointer : (s.next i).pointer = J.pointer := congrArg Job.pointer job
  have some : 0 < J.indices.words := Nat.succ_pos _
  constructor
  case regs => exact congrArg Job.regs job
  case indir => rw [config, fetches.indir]
  case dims => rw [config]
  case pointer =>
    rw [pointer, Nat.mul_zero]
    exact (BitVec.add_zero _).symm
  case upper =>
    intro k _
    exact ready.index_next i k
  case index =>
    rw [if_neg (Nat.ne_of_lt some)]
    exact ready.index_next i _
  case baseLast =>
    intro _
    rw [base]
    rfl
  case inflight =>
    rw [last, decide_eq_false (Nat.ne_of_lt some)]
  case bytecnt =>
    have register : (s.next i).pointer = s.pointerNext i := rfl
    rw [register, pointerNext, if_pos ready.done] at pointer
    rw [bytecnt, pointer, Packed.slotOf_zero, BitVec.toNat_setWidth, fetches.word_bytes,
      fetches.offset_eq]
  case queue =>
    rw [quiet.idxFifo, Packed.used_zero]
    rfl
  case credit =>
    rw [Nat.zero_sub, Nat.add_zero, credit]
  case used => rw [Packed.used_zero]
  case received => exact Nat.le_refl _
  case asked => exact Nat.zero_le _
  case within => exact Nat.zero_le _
  case unblocked => exact unblocked
  case unlocked => exact unlocked

/-- A stream that takes up a gather is at its start. -/
theorem Ready.gathering (mem : BitVec C.PointerWidth → BitVec C.DataWidth) :
    Gathering J mem [] (s.next i) := by
  obtain ⟨running, _⟩ := job_of_started starts
  have quiet := ready.quiet_next silent fun slave =>
    absurd (fetches.fetches ▸ slave) Bool.false_ne_true
  have empty := ready.queue_next i
  refine
    { fetching := ready.fetching silent starts fetches _
      words := rfl
      pointers := List.nil_prefix
      passed := ?_
      harmless := ?_
      unpaired := ⟨quiet.slvSpill, quiet.doneFifo, quiet.domp, quiet.dom, fun _ => quiet.doi⟩
      running := ?_
      ended := ?_ }
  · rw [empty]
    rfl
  · intro x member
    rw [empty] at member
    exact absurd member List.not_mem_nil
  · intro _ x member
    exact absurd member List.not_mem_nil
  · intro done
    rw [running] at done
    exact Bool.noConfusion done

end

/-! ### Progress -/

/-- What a gather waits for. -/
inductive Need where
  | output
  | word
  | request

/-- What is left to do. -/
def undone (J : Job C) (past : List (GatherObs C)) : Nat :=
  (J.indices.words - (fetched past).length) + (J.indices.words - arrived past) +
    (J.indices.bound + 1 - (pointed past).length) + (J.indices.bound + 1 - (sent past).length)

/-- Elements wait for the memory port, words asked for have not come, or a word is to be
asked for. -/
def need (J : Job C) (past : List (GatherObs C)) : Need :=
  if (sent past).length < (pointed past).length ∨
      J.indices.used (pointed past).length < arrived past then .output
  else if arrived past < (fetched past).length then .word
  else .request

/-- The input a need waits for. -/
def Need.Met (i : AgIn C) : Need → Prop
  | output => i.memReady = true
  | word => i.idxRsp.pValid = true
  | request => i.idxRsp.qReady = true

theorem undone_concat (J : Job C) (past : List (GatherObs C)) (s : AddrGen P) (i : AgIn C) :
    undone J (past ++ [(gatherMachine P).obs s i]) =
      (J.indices.words - ((fetched past).length + (s.indir.idxQhs (s.indirIn i)).toNat)) +
        (J.indices.words - (arrived past + i.idxRsp.pValid.toNat)) +
        (J.indices.bound + 1 - ((pointed past).length +
          (s.indir.memHs (s.indirIn i) (s.spillInReady i)).toNat)) +
        (J.indices.bound + 1 - ((sent past).length + (s.memHs i).toNat)) := by
  rw [undone, fetched_concat, arrived_concat, pointed_concat, sent_concat, List.length_append,
    List.length_append, List.length_append, length_ite, length_ite, length_ite]

/-- Without an event the need stays. -/
theorem need_concat (J : Job C) {past : List (GatherObs C)} {s : AddrGen P} {i : AgIn C}
    (fetches : s.indir.idxQhs (s.indirIn i) = false) (arrives : i.idxRsp.pValid = false)
    (emits : s.indir.memHs (s.indirIn i) (s.spillInReady i) = false) (leaves : s.memHs i = false) :
    need J (past ++ [(gatherMachine P).obs s i]) = need J past := by
  rw [need, fetched_concat, arrived_concat, pointed_concat, sent_concat, fetches, arrives, emits,
    leaves]
  simp only [Bool.false_eq_true, if_false, List.append_nil, Bool.toNat_false, Nat.add_zero]
  rfl

namespace Gathering

variable {J : Job C} {mem : BitVec C.PointerWidth → BitVec C.DataWidth} {past : List (GatherObs C)}
  {s : AddrGen P} (gathering : Gathering J mem past s)

include gathering

/-- The counts never exceed what there is to do. -/
theorem counted : (fetched past).length ≤ J.indices.words ∧ arrived past ≤ J.indices.words ∧
    (pointed past).length ≤ J.indices.bound + 1 ∧
    (sent past).length + s.queue.length = (pointed past).length := by
  have asked := gathering.fetching.asked
  have received := gathering.fetching.received
  have passed := congrArg List.length gathering.passed
  rw [List.length_append, List.length_map, List.length_map] at passed
  exact ⟨asked, by omega, gathering.fetching.within, passed.symm⟩

omit gathering in
/-- What the counts of a gather say of the cycle before. -/
theorem counted_concat {i : AgIn C} {s' : AddrGen P}
    (after : Gathering J mem (past ++ [(gatherMachine P).obs s i]) s') :
    (fetched past).length + (s.indir.idxQhs (s.indirIn i)).toNat ≤ J.indices.words ∧
      arrived past + i.idxRsp.pValid.toNat ≤ J.indices.words ∧
      (pointed past).length + (s.indir.memHs (s.indirIn i) (s.spillInReady i)).toNat ≤
        J.indices.bound + 1 ∧
      (sent past).length + (s.memHs i).toNat ≤ J.indices.bound + 1 := by
  obtain ⟨asked, received, emitted, passed⟩ := after.counted
  have leaves : (sent (past ++ [(gatherMachine P).obs s i])).length ≤ J.indices.bound + 1 := by
    omega
  rw [fetched_concat, List.length_append, length_ite] at asked
  rw [arrived_concat] at received
  rw [pointed_concat, List.length_append, length_ite] at emitted
  rw [sent_concat, List.length_append, length_ite] at leaves
  exact ⟨asked, received, emitted, leaves⟩

/-- While a gather runs, its last element has not left. -/
theorem unfinished (running : s.config.done = false) :
    ¬(J.indices.used (pointed past).length = J.indices.words ∧ s.queue = []) := by
  rintro ⟨used, empty⟩
  have all : (pointed past).length = J.indices.bound + 1 := by
    have within := gathering.fetching.within
    by_contra before
    have below := J.indices.used_lt_words (c := (pointed past).length) (by omega)
    omega
  obtain ⟨rest, whole⟩ := gathering.pointers
  have lengths := congrArg List.length whole
  rw [List.length_append, length_gathered, all] at lengths
  have none : rest = [] := List.length_eq_zero_iff.mp (by omega)
  rw [none, List.append_nil, gathering.passed, empty, List.map_nil, List.append_nil] at whole
  have last := getElem_gathered J mem (Nat.le_refl J.indices.bound)
  rw [← whole] at last
  have member := List.mem_of_getElem? last
  rw [List.mem_map] at member
  obtain ⟨x, old, marks⟩ := member
  have flag : x.last = decide (J.indices.bound = J.indices.bound) := congrArg Prod.snd marks
  rw [gathering.running running x old, decide_eq_true rfl] at flag
  exact Bool.noConfusion flag

variable (fetches : J.Fetches) (i : AgIn C)

include fetches

/-- A ready memory port takes an element or lets a pointer into the output stage. -/
theorem output_moves (alone : Alone J) (waits : need J past = .output) (ready : i.memReady = true) :
    s.memHs i = true ∨ s.indir.memHs (s.indirIn i) (s.spillInReady i) = true := by
  obtain ⟨_, _, _, passed⟩ := gathering.counted
  have noKill := gathering.noKill fetches alone i
  have open_port : s.spillOutReady i = true := by rw [spillOutReady, ready, Bool.true_or]
  have leaves : s.memHs i = s.spillOutValid i := by
    rw [← noKill.memPtrHs_eq, memPtrHs, if_pos fetches.indirection, open_port, Bool.and_true]
  have hands := gathering.fetching.memHs_eq fetches alone i (s.spillInReady i)
  rw [leaves, spillOutValid, P.outSpill.lawful.valid_eq, hands]
  by_cases empty : P.outSpill.contents s.spill = []
  · have none : s.queue = [] := by rw [queue, if_pos fetches.indirection, empty]
    rw [none, List.length_nil, Nat.add_zero] at passed
    have stocked : s.indir.idxSerValid = true := by
      rw [gathering.fetching.idxSerValid_iff]
      by_contra dry
      rw [need, if_neg (by omega)] at waits
      split at waits <;> exact absurd waits (by simp)
    by_cases bypass : (!C.IndirOutSpill) = true
    · -- a wire hands the pointer straight to the memory
      refine Or.inl ?_
      have valid : s.spillInValid i = true := by
        rw [spillInValid, if_pos gathering.fetching.indir, Indirector.memValid, fetches.fetches,
          if_neg Bool.false_ne_true, gathering.fetching.master_eq alone,
          if_neg Bool.false_ne_true, stocked]
      rw [valid, Bool.and_true, Bool.or_eq_true]
      exact Or.inr bypass
    · -- an empty register takes it
      refine Or.inr ?_
      rw [Bool.not_eq_true] at bypass
      rw [stocked, spillInReady, P.outSpill.lawful.accepts bypass _ _ empty]
      rfl
  · refine Or.inl ?_
    rw [Bool.or_eq_true, Bool.not_eq_true', List.isEmpty_eq_false_iff]
    exact Or.inl empty

/-- A ready index port takes the next request. -/
theorem request_moves (running : s.config.done = false) (waits : need J past = .request) (ready : i.idxRsp.qReady = true) :
    s.indir.idxQhs (s.indirIn i) = true := by
  obtain ⟨asked, _, _, passed⟩ := gathering.counted
  have used := gathering.fetching.used
  have received := gathering.fetching.received
  have some := fetches.credits
  have unfinished := gathering.unfinished running
  have idle : ¬((sent past).length < (pointed past).length ∨
      J.indices.used (pointed past).length < arrived past) := by
    intro busy
    rw [need, if_pos busy] at waits
    exact absurd waits (by simp)
  have none : ¬arrived past < (fetched past).length := by
    intro outstanding
    rw [need, if_neg idle, if_pos outstanding] at waits
    exact absurd waits (by simp)
  have left : (fetched past).length < J.indices.words := by
    by_contra all
    exact unfinished ⟨by omega, List.length_eq_zero_iff.mp (by omega)⟩
  have asks := (gathering.fetching.natitEna_iff running i).mpr ⟨by omega, left⟩
  have port : (s.indirIn i).idxRsp.qReady = true := ready
  rw [Indirector.idxQhs, gathering.fetching.idxQvalid fetches, asks, port]
  rfl

end Gathering

/-! ### The gather -/

section Run

variable {J : Job C} {mem : BitVec C.PointerWidth → BitVec C.DataWidth} {s : AddrGen P}
  {u : Nat → AgIn C} (fetches : J.Fetches) (alone : Alone J) (gathering : Gathering J mem [] s)
  (served : ∀ n, ((gatherMachine P).stateAt s u n).config.done = false →
    Served mem ((gatherMachine P).history s u n) (u n))

include fetches alone gathering served

theorem gathering_run (n : Nat)
    (before : ∀ m < n, ((gatherMachine P).stateAt s u m).config.done = false) :
    Gathering J mem ((gatherMachine P).history s u n) ((gatherMachine P).stateAt s u n) := by
  induction n with
  | zero => exact gathering
  | succ n ih =>
    have here := ih fun m less => before m (Nat.lt_succ_of_lt less)
    have running := before n (Nat.lt_succ_self n)
    exact here.next fetches alone running (served n running)

/-- A gather ends, if the ports keep being ready and every word asked for comes. -/
theorem gather_ends (output : ∀ n, ∃ m, n ≤ m ∧ (u m).memReady = true)
    (request : ∀ n, ∃ m, n ≤ m ∧ (u m).idxRsp.qReady = true)
    (answer : ∀ n, arrived ((gatherMachine P).history s u n) <
        (fetched ((gatherMachine P).history s u n)).length →
      ∃ m, n ≤ m ∧ (u m).idxRsp.pValid = true) :
    ∃ n, ((gatherMachine P).stateAt s u n).config.done = true := by
  have runs : ∀ n, (∀ m ≤ n, ¬((gatherMachine P).stateAt s u m).config.done = true) →
      Gathering J mem ((gatherMachine P).history s u n) ((gatherMachine P).stateAt s u n) ∧
        Gathering J mem ((gatherMachine P).history s u (n + 1))
          ((gatherMachine P).stateAt s u (n + 1)) ∧
        ((gatherMachine P).stateAt s u n).config.done = false := by
    intro n missed
    have running : ∀ m ≤ n, ((gatherMachine P).stateAt s u m).config.done = false :=
      fun m upto => Bool.not_eq_true _ ▸ missed m upto
    refine ⟨?_, ?_, running n (Nat.le_refl n)⟩
    · exact gathering_run fetches alone gathering served n fun m less =>
        running m (Nat.le_of_lt less)
    · exact gathering_run fetches alone gathering served (n + 1) fun m less =>
        running m (Nat.le_of_lt_succ less)
  apply Machine.exists_of_needs (fun n => ((gatherMachine P).stateAt s u n).config.done = true)
    (fun n => undone J ((gatherMachine P).history s u n))
    (fun n => need J ((gatherMachine P).history s u n)) (fun k n => k.Met (u n))
  case keeps =>
    intro n _
    show undone J (_ ++ [_]) ≤ _
    rw [undone_concat, undone]
    omega
  case stays =>
    intro n missed level
    obtain ⟨_, after, _⟩ := runs n missed
    obtain ⟨asked, received, emitted, leaves⟩ := after.counted_concat
    have history : (gatherMachine P).history s u (n + 1) = (gatherMachine P).history s u n ++
        [(gatherMachine P).obs ((gatherMachine P).stateAt s u n) (u n)] := rfl
    rw [history, undone_concat, undone] at level
    rw [history]
    apply need_concat
    all_goals
      apply Bool.toNat_eq_zero.mp
      omega
  case lowers =>
    intro n missed met
    obtain ⟨here, after, running⟩ := runs n missed
    obtain ⟨asked, received, emitted, leaves⟩ := after.counted_concat
    have history : (gatherMachine P).history s u (n + 1) = (gatherMachine P).history s u n ++
        [(gatherMachine P).obs ((gatherMachine P).stateAt s u n) (u n)] := rfl
    rw [history, undone_concat, undone]
    cases waits : need J ((gatherMachine P).history s u n) with
    | output =>
      rw [waits] at met
      rcases here.output_moves fetches (u n) alone waits met with goes | enters
      · rw [goes, Bool.toNat_true] at leaves ⊢
        omega
      · rw [enters, Bool.toNat_true] at emitted ⊢
        omega
    | word =>
      rw [waits] at met
      have comes : (u n).idxRsp.pValid = true := met
      rw [comes, Bool.toNat_true] at received ⊢
      omega
    | request =>
      rw [waits] at met
      have asks := here.request_moves fetches (u n) running waits met
      rw [asks, Bool.toNat_true] at asked ⊢
      omega
  case recurs =>
    intro n
    cases waits : need J ((gatherMachine P).history s u n) with
    | output => exact output n
    | request => exact request n
    | word =>
      apply answer n
      by_contra none
      rw [need, if_neg none] at waits
      split at waits <;> exact absurd waits (by simp)

end Run

/-- **An indirect job gathers the elements its indices name.**  From any launch of a stream
at rest, whatever the memory and the ports do: the words the index array overlaps are
fetched in order, the pointers of its indices emitted in order, the last one flagged, and
at the end of the job these are all, with no index word left and all credits back.  The
job ends if the ports keep being ready and every word asked for comes. -/
theorem indices_gathered (mem : BitVec C.PointerWidth → BitVec C.DataWidth) {s : AddrGen P}
    {i : AgIn C} {J : Job C} (ready : Ready s) (silent : i.idxRsp.pValid = false)
    (starts : s.started i = some J) (fetches : J.Fetches) (alone : Alone J) (u : Nat → AgIn C)
    (served : ∀ n, ((gatherMachine P).stateAt (s.next i) u n).config.done = false →
      Served mem ((gatherMachine P).history (s.next i) u n) (u n)) :
    (∀ n, (∀ m < n, ((gatherMachine P).stateAt (s.next i) u m).config.done = false) →
      fetched ((gatherMachine P).history (s.next i) u n) <+: J.indexWords ∧
      pointed ((gatherMachine P).history (s.next i) u n) <+: J.gathered mem ∧
      (((gatherMachine P).stateAt (s.next i) u n).config.done = true →
        fetched ((gatherMachine P).history (s.next i) u n) = J.indexWords ∧
        pointed ((gatherMachine P).history (s.next i) u n) = J.gathered mem ∧
        P.indir.idxFifo.contents ((gatherMachine P).stateAt (s.next i) u n).indir.idxFifo = [] ∧
        ((gatherMachine P).stateAt (s.next i) u n).indir.idxCredit.toNat = C.IndexCredits)) ∧
    ((∀ n, ∃ m, n ≤ m ∧ (u m).memReady = true) →
      (∀ n, ∃ m, n ≤ m ∧ (u m).idxRsp.qReady = true) →
      (∀ n, arrived ((gatherMachine P).history (s.next i) u n) <
          (fetched ((gatherMachine P).history (s.next i) u n)).length →
        ∃ m, n ≤ m ∧ (u m).idxRsp.pValid = true) →
      ∃ n, ((gatherMachine P).stateAt (s.next i) u n).config.done = true) := by
  have start := ready.gathering silent starts fetches mem
  constructor
  · intro n before
    have gathering := gathering_run fetches alone start served n before
    refine ⟨?_, gathering.pointers, ?_⟩
    · obtain ⟨left, all⟩ := Nat.le.dest gathering.fetching.asked
      rw [gathering.words, fetches.indexWords_eq, ← all, List.range_add, List.map_append]
      exact List.prefix_append _ _
    · intro done
      obtain ⟨words, empty, credit, _⟩ := gathering.at_end fetches done
      exact ⟨words, (gathering.all_of_done done).1, empty, credit⟩
  · exact gather_ends fetches alone start served

/-! ## An index of four bytes in narrow registers -/

/-- A stream with narrow index registers, without an output register. -/
def narrowCfg : Cfg :=
  { indirCfg with IndirOutSpill := false, IndexWidth := 12, index_pos := by decide, index_le := by decide }

/-- A stream at rest that is programmed for indices of four bytes. -/
def fourBytes : AddrGen (.ofList narrowCfg) :=
  { init (.ofList narrowCfg) with regsS := { JobRegs.zero narrowCfg with idxSize := 2 } }

/-- A gather of one index. -/
def gatherOne : Job narrowCfg where
  pointer := 0
  config := ⟨false, false, 0, true⟩
  regs := { JobRegs.zero narrowCfg with idxSize := 2 }

/-- A memory that is full of indices. -/
def full (index : BitVec 64) : BitVec narrowCfg.PointerWidth → BitVec narrowCfg.DataWidth :=
  fun _ => index

/-- The request, the answer, the pointer. -/
def oneIndex (index : BitVec 64) : Nat → AgIn narrowCfg
  | 0 => { memReady := true, idxRsp := { qReady := true } }
  | 1 => { memReady := true, idxRsp := { pValid := true, data := index } }
  | _ => { memReady := true }

/-- The write that launches it. -/
def launchGather : AgIn narrowCfg := { cfgWord := 16, cfgWrite := true, memReady := false }

theorem fourBytes_ready : Ready fourBytes where
  toRested := ⟨rfl, fun _ => rfl, rfl, (idle_init _).quiet⟩
  credit := rfl
  unlocked := rfl

theorem gatherOne_starts : fourBytes.started launchGather = some gatherOne := by
  have regs : fourBytes.regsD launchGather = gatherOne.regs :=
    JobRegs.write_status _ (Or.inr (by decide)) _
  have job : (fourBytes.next launchGather).job =
      ⟨fourBytes.pointerNext launchGather, fourBytes.configNext launchGather,
        fourBytes.regsD launchGather⟩ := rfl
  rw [started, if_pos (by decide), job, regs]
  rfl

/-- What the request shows. -/
def requestShown : List (GatherObs narrowCfg) :=
  [(gatherMachine (.ofList narrowCfg)).obs (fourBytes.next launchGather)
    { memReady := true, idxRsp := { qReady := true } }]

theorem oneIndex_served (index : BitVec 64) (n : Nat) :
    Served (full index) ((gatherMachine (.ofList narrowCfg)).history
      (fourBytes.next launchGather) (oneIndex index) n) (oneIndex index n) := by
  intro arrives
  match n with
  | 0 => exact Bool.noConfusion arrives
  | 1 =>
    have asked : (fetched requestShown)[arrived requestShown]? = some 0 := by decide
    exact ⟨0, asked, rfl⟩
  | n + 2 => exact Bool.noConfusion arrives

theorem indices_gathered_one :
    pointed ((gatherMachine (.ofList narrowCfg)).history (fourBytes.next launchGather)
      (oneIndex 5) 3) = gatherOne.gathered (full 5) ∧ gatherOne.gathered (full 5) = [(40, true)] := by
  have gathers := (indices_gathered (full 5) fourBytes_ready rfl gatherOne_starts
    ⟨rfl, by decide, rfl, rfl, rfl, rfl⟩ (fun able => absurd able (by decide)) (oneIndex 5)
    fun n _ => oneIndex_served 5 n).1 3 (by decide)
  exact ⟨(gathers.2.2 (by decide)).2.1, by decide⟩

/-- Registers of twelve bits keep twelve bits of the index. -/
theorem wide_index_cut :
    fourBytes.started launchGather = some gatherOne ∧
    (∀ n, Served (full 0x1000) ((gatherMachine (.ofList narrowCfg)).history
      (fourBytes.next launchGather) (oneIndex 0x1000) n) (oneIndex 0x1000 n)) ∧
    ((gatherMachine (.ofList narrowCfg)).stateAt (fourBytes.next launchGather)
      (oneIndex 0x1000) 3).config.done = true ∧
    pointed ((gatherMachine (.ofList narrowCfg)).history (fourBytes.next launchGather)
      (oneIndex 0x1000) 3) = [(0, true)] ∧
    flagLast ((List.range (gatherOne.indices.bound + 1)).map
      (gatherOne.widePointerOf (full 0x1000))) = [(0x8000, true)] :=
  ⟨gatherOne_starts, oneIndex_served 0x1000, by decide, by decide, by decide⟩

end AddrGen

end SnitchCluster.Ssr
