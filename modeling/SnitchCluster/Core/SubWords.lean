/-
# Core.SubWords -- sub-word loads return what sub-word stores wrote

A store narrower than the bus is rotated to its byte lanes and marks them in the byte enables; a
load remembers its offset and size, shifts the answer back and extends it.  The four encodings
are stated bit by bit: the enables (`strb_getLsbD`), the rotated data (`data_getLsbD`), the
word of the memory (`written_getLsbD`) and the result (`loadResult_low`, `loadResult_high`).
The unit of the FP subsystem is the same with `NaNBox`.
-/
import Mathlib.Algebra.Group.Nat.Defs
import SnitchCluster.Core.LsuQueues

namespace SnitchCluster.Core

open Theory

def LsSize.bytes : LsSize → Nat
  | .byte => 1
  | .halfWord => 2
  | .word => 4
  | .double => 8

@[simp] theorem LsSize.eight_bytes (size : LsSize) : 8 * size.bytes = size.width := by
  cases size <;> rfl

/-- A byte lane of a word. -/
def lane {n : Nat} (w : BitVec n) (k : Nat) : BitVec 8 := w.extractLsb' (8 * k) 8

theorem lane_eq {n m : Nat} {w : BitVec n} {v : BitVec m} {k l : Nat}
    (bits : ∀ j < 8, w.getLsbD (8 * k + j) = v.getLsbD (8 * l + j)) : lane w k = lane v l := by
  apply BitVec.eq_of_getLsbD_eq
  intro j inside
  simp [lane, inside, bits j inside]

section Word

variable {C : Cfg}

/-- `lsu_qaddr_i[DataAlign-1:0]`. -/
def LsuReq.offset (r : LsuReq C) : Nat := (r.qaddr.extractLsb' 0 C.DataAlign).toNat

/-- No wider than the bus, at a multiple of its size. -/
structure LsuReq.Natural (r : LsuReq C) : Prop where
  fits : r.qsize.bytes ≤ C.DataWidth / 8
  aligned : r.qaddr.toNat % r.qsize.bytes = 0

/-- What a memory with byte enables makes of a word. -/
def strobed (strb : BitVec (C.DataWidth / 8)) (data old : BitVec C.DataWidth) :
    BitVec C.DataWidth :=
  (BitVec.ofBoolListLE ((List.range C.DataWidth).map fun b =>
    if strb.getLsbD (b / 8) then data.getLsbD b else old.getLsbD b)).cast (by simp)

/-- The word after the store. -/
def LsuReq.written (r : LsuReq C) (old : BitVec C.DataWidth) : BitVec C.DataWidth :=
  strobed (LsuState.dataReq r).strb (LsuState.dataReq r).data old

/-- `lsu_pdata_o` for the oldest load of the queue. -/
def Laq.loadResult (nanBox : Bool) (out : Laq C) (data : BitVec C.DataWidth) :
    BitVec C.DataWidth :=
  let shifted : BitVec 64 := data.setWidth 64 >>> (8 * out.offset.toNat)
  let fill (n bit : Nat) : BitVec n :=
    if (shifted.getLsbD bit || nanBox) && out.signExt then BitVec.allOnes n else 0
  let ldResult : BitVec 64 :=
    match out.size with
    | .byte => fill 56 7 ++ shifted.extractLsb' 0 8
    | .halfWord => fill 48 15 ++ shifted.extractLsb' 0 16
    | .word => fill 32 31 ++ shifted.extractLsb' 0 32
    | .double => shifted
  ldResult.setWidth C.DataWidth

/-- A store and a later load of the same word of the bus. -/
structure RoundTrip (nanBox : Bool) (store load : LsuReq C) (old : BitVec C.DataWidth) : Prop where
  stored : ∀ k < store.qsize.bytes,
    lane (store.written old) (store.offset + k) = lane store.qdata k
  kept : ∀ k < C.DataWidth / 8, k < store.offset ∨ store.offset + store.qsize.bytes ≤ k →
    lane (store.written old) k = lane old k
  loaded : ∀ k < load.qsize.bytes,
    lane (load.remembered.loadResult nanBox (store.written old)) k =
      lane (store.written old) (load.offset + k)
  extended : ∀ b < C.DataWidth, load.qsize.width ≤ b →
    (load.remembered.loadResult nanBox (store.written old)).getLsbD b =
      (load.qsigned && (nanBox ||
        (store.written old).getLsbD (8 * load.offset + (load.qsize.width - 1))))

theorem strobed_getLsbD {strb : BitVec (C.DataWidth / 8)} {data old : BitVec C.DataWidth}
    {b : Nat} (inside : b < C.DataWidth) : (strobed strb data old).getLsbD b =
      if strb.getLsbD (b / 8) then data.getLsbD b else old.getLsbD b := by
  rw [strobed, BitVec.getLsbD_cast, BitVec.getLsbD_ofBoolListLE, List.getD_eq_getElem?_getD]
  simp only [List.getElem?_map, List.getElem?_range inside, Option.map_some, Option.getD_some]

end Word

/-! ## Bit by bit -/

section Bits

variable {C : Cfg} {r : LsuReq C} (bus : C.DataWidth = 32 ∨ C.DataWidth = 64)

include bus

theorem lanes_pow : C.DataWidth / 8 = 2 ^ C.DataAlign ∧ C.DataWidth = 8 * (C.DataWidth / 8) := by
  rcases bus with narrow | wide
  · simp [Cfg.DataAlign, narrow, show Nat.clog 2 4 = 2 from by decide]
  · simp [Cfg.DataAlign, wide, show Nat.clog 2 8 = 3 from by decide]

theorem offset_eq : r.offset = r.qaddr.toNat % (C.DataWidth / 8) := by
  rw [(lanes_pow bus).1, LsuReq.offset]
  simp

/-- The size divides the offset, and the field ends within the word. -/
theorem offset_spec (natural : r.Natural) : r.offset % r.qsize.bytes = 0 ∧
    r.offset + r.qsize.bytes ≤ C.DataWidth / 8 := by
  obtain ⟨fits, aligned⟩ := natural
  have place := offset_eq (r := r) bus
  rcases bus with narrow | wide
  · rw [narrow] at fits place ⊢
    cases size : r.qsize <;> simp only [size, LsSize.bytes] at fits aligned ⊢ <;> omega
  · rw [wide] at fits place ⊢
    cases size : r.qsize <;> simp only [size, LsSize.bytes] at fits aligned ⊢ <;> omega

omit bus in
/-- A field of ones, shifted to its lanes. -/
theorem ones_shiftLeft {n c o k : Nat} (inside : k < n) :
    (BitVec.ofNat n (2 ^ c - 1) <<< o).getLsbD k = decide (o ≤ k ∧ k < o + c) := by
  have low : k - o < n := by omega
  simp only [BitVec.getLsbD_shiftLeft, BitVec.getLsbD_ofNat, Nat.testBit_two_pow_sub_one, inside,
    low, decide_true, Bool.true_and]
  by_cases above : o ≤ k
  · have same : k - o < c ↔ k < o + c := by omega
    simp [above, same]
  · simp [above]

/-- The enables mark the lanes of the field. -/
theorem strb_getLsbD (natural : r.Natural) {k : Nat} (inside : k < C.DataWidth / 8) :
    (LsuState.dataReq r).strb.getLsbD k =
      decide (r.offset ≤ k ∧ k < r.offset + r.qsize.bytes) := by
  have fits := (offset_spec bus natural).2
  have lanes : C.DataWidth / 8 = 4 ∨ C.DataWidth / 8 = 8 := by omega
  cases size : r.qsize with
  | byte =>
    simp only [LsuState.dataReq, size]
    exact ones_shiftLeft (c := 1) inside
  | halfWord =>
    simp only [LsuState.dataReq, size]
    exact ones_shiftLeft (c := 2) inside
  | word =>
    simp only [LsuState.dataReq, size]
    exact ones_shiftLeft (c := 4) inside
  | double =>
    simp only [size, LsSize.bytes] at fits ⊢
    have start : r.offset = 0 := by omega
    have below : k < 8 := by omega
    simp [LsuState.dataReq, size, inside, start, below]

/-- The data are rotated to their lanes. -/
theorem data_getLsbD (natural : r.Natural) {b : Nat} (inside : b < C.DataWidth)
    (above : 8 * r.offset ≤ b) :
    (LsuState.dataReq r).data.getLsbD b = r.qdata.getLsbD (b - 8 * r.offset) := by
  have fits := (offset_spec bus natural).2
  have small : 8 * r.offset < 64 := by omega
  have turned : r.offset < 8 := by omega
  have data : (LsuState.dataReq r).data =
      ((r.qdata.setWidth 64).rotateLeft (8 * r.offset)).setWidth C.DataWidth := by
    simp only [LsuState.dataReq]
    rw [LsuReq.offset] at turned
    rw [if_pos turned, LsuReq.offset]
  have inside64 : b < 64 := by omega
  have below : b - 8 * r.offset < 64 := by omega
  rw [data, BitVec.getLsbD_setWidth, BitVec.getLsbD_rotateLeft, Nat.mod_eq_of_lt small]
  simp [inside, inside64, below, Nat.not_lt.mpr above]

/-! ### The word and the result -/

variable {old data : BitVec C.DataWidth} {nanBox : Bool}

theorem written_getLsbD (natural : r.Natural) {b : Nat} (inside : b < C.DataWidth) :
    (r.written old).getLsbD b =
      if r.offset ≤ b / 8 ∧ b / 8 < r.offset + r.qsize.bytes then
        r.qdata.getLsbD (b - 8 * r.offset) else old.getLsbD b := by
  have row : b / 8 < C.DataWidth / 8 := by omega
  rw [LsuReq.written, strobed_getLsbD inside, strb_getLsbD bus natural row]
  by_cases field : r.offset ≤ b / 8 ∧ b / 8 < r.offset + r.qsize.bytes
  · rw [if_pos (by simpa using field), if_pos field, data_getLsbD bus natural inside (by omega)]
  · rw [if_neg (by simpa using field), if_neg field]

/-- The shifted answer begins with the field. -/
theorem shifted_getLsbD {b : Nat} (inside : 8 * r.offset + b < C.DataWidth) :
    (data.setWidth 64 >>> (8 * r.offset)).getLsbD b = data.getLsbD (8 * r.offset + b) := by
  have inside64 : 8 * r.offset + b < 64 := by omega
  simp [inside64]

omit bus in
/-- A field under its extension. -/
theorem filled_getLsbD {m n b : Nat} {v : BitVec 64} {ones : Bool} (inside : b < m + n) :
    ((if ones then BitVec.allOnes m else 0) ++ v.extractLsb' 0 n : BitVec (m + n)).getLsbD b =
      if b < n then v.getLsbD b else ones := by
  rw [BitVec.getLsbD_append]
  by_cases low : b < n
  · simp [low]
  · have high : b - n < m := by omega
    cases ones <;> simp [low, high]

omit bus in
/-- The result, bit by bit, from the shifted answer. -/
theorem loadResult_getLsbD {out : Laq C} {b : Nat} (inside : b < C.DataWidth) (wide : b < 64) :
    (out.loadResult nanBox data).getLsbD b =
      if b < out.size.width then (data.setWidth 64 >>> (8 * out.offset.toNat)).getLsbD b
      else ((data.setWidth 64 >>> (8 * out.offset.toNat)).getLsbD (out.size.width - 1) || nanBox) &&
        out.signExt := by
  rw [Laq.loadResult, BitVec.getLsbD_setWidth, decide_eq_true inside, Bool.true_and]
  cases out.size with
  | byte => exact filled_getLsbD (m := 56) (n := 8) wide
  | halfWord => exact filled_getLsbD (m := 48) (n := 16) wide
  | word => exact filled_getLsbD (m := 32) (n := 32) wide
  | double => exact (if_pos wide).symm

theorem loadResult_low (natural : r.Natural) {b : Nat} (low : b < r.qsize.width) :
    (r.remembered.loadResult nanBox data).getLsbD b = data.getLsbD (8 * r.offset + b) := by
  have fits := (offset_spec bus natural).2
  have width := LsSize.eight_bytes r.qsize
  have whole := (lanes_pow bus).2
  have inside : 8 * r.offset + b < C.DataWidth := by omega
  have narrow : b < r.remembered.size.width := low
  rw [loadResult_getLsbD (by omega) (by omega), if_pos narrow]
  exact shifted_getLsbD bus inside

theorem loadResult_high (natural : r.Natural) {b : Nat} (inside : b < C.DataWidth)
    (high : r.qsize.width ≤ b) : (r.remembered.loadResult nanBox data).getLsbD b =
      (r.qsigned && (nanBox || data.getLsbD (8 * r.offset + (r.qsize.width - 1)))) := by
  have fits := (offset_spec bus natural).2
  have width := LsSize.eight_bytes r.qsize
  have whole := (lanes_pow bus).2
  have positive : 0 < r.qsize.width := by cases r.qsize <;> decide
  have wide : ¬b < r.remembered.size.width := Nat.not_lt.mpr high
  have sign : (data.setWidth 64 >>> (8 * r.offset)).getLsbD (r.qsize.width - 1) =
      data.getLsbD (8 * r.offset + (r.qsize.width - 1)) := shifted_getLsbD bus (by omega)
  rw [loadResult_getLsbD inside (by omega), if_neg wide, Bool.and_comm, Bool.or_comm]
  exact congrArg (fun x => r.qsigned && (nanBox || x)) sign

/-- The unit of the integer core extends without `NaNBox`. -/
theorem ldResult_eq {P : LsuParts C} (l : LsuState P) (rsp : DataRsp C) :
    (l.ldResult rsp).setWidth C.DataWidth = (P.laq.data l.laq).loadResult false rsp.data := by
  rw [LsuState.extend_eq]
  generalize P.laq.data l.laq = out
  have narrow : C.DataWidth ≤ 64 := by omega
  apply BitVec.eq_of_getLsbD_eq
  intro b inside
  have positive : 0 < out.size.width := by cases out.size <;> decide
  have shifted (k : Nat) : (rsp.data.setWidth 64 >>> (8 * out.offset.toNat)).getLsbD k =
      rsp.data.getLsbD (8 * out.offset.toNat + k) := by
    by_cases within : 8 * out.offset.toNat + k < 64
    · simp [within]
    · rw [BitVec.getLsbD_of_ge rsp.data _ (by omega)]
      simp [within]
  have wide : b < 64 := by omega
  have last : out.size.width - 1 < out.size.width := by omega
  rw [BitVec.getLsbD_setWidth, loadResult_getLsbD inside wide, shifted, shifted, Laq.extend]
  by_cases low : b < out.size.width
  · cases signed : out.signExt <;>
      simp only [inside, low, wide, decide_true, Bool.true_and, if_true, Bool.false_eq_true,
        if_false, BitVec.getLsbD_setWidth, BitVec.getLsbD_signExtend, BitVec.getLsbD_ushiftRight]
  · cases signed : out.signExt <;>
      simp only [inside, low, last, wide, decide_true, decide_false, Bool.true_and, Bool.false_and,
        Bool.and_true, Bool.and_false, Bool.or_false, if_true, Bool.false_eq_true, if_false,
        BitVec.getLsbD_setWidth, BitVec.getLsbD_signExtend, BitVec.msb_eq_getLsbD_last,
        BitVec.getLsbD_ushiftRight]

end Bits

/-- **Sub-word loads return what sub-word stores wrote**: a store changes the lanes of its field
to the low lanes of the register and no other, and a load of any field of the word returns
its lanes, extended as asked. -/
theorem roundTrip (C : Cfg) (bus : C.DataWidth = 32 ∨ C.DataWidth = 64) (nanBox : Bool)
    (store load : LsuReq C) (storeNatural : store.Natural) (loadNatural : load.Natural)
    (old : BitVec C.DataWidth) : RoundTrip nanBox store load old := by
  have storeFits := (offset_spec bus storeNatural).2
  have loadFits := (offset_spec bus loadNatural).2
  have whole := (lanes_pow bus).2
  have width := LsSize.eight_bytes load.qsize
  constructor
  · intro k field
    apply lane_eq
    intro j bit
    have row : (8 * (store.offset + k) + j) / 8 = store.offset + k := by omega
    rw [written_getLsbD bus storeNatural (by omega), row, if_pos (by omega)]
    congr 1
    omega
  · intro k inside outside
    apply lane_eq
    intro j bit
    have row : (8 * k + j) / 8 = k := by omega
    rw [written_getLsbD bus storeNatural (by omega), row, if_neg (by omega)]
  · intro k field
    apply lane_eq
    intro j bit
    rw [loadResult_low bus loadNatural (by omega)]
    congr 1
    omega
  · intro b inside high
    exact loadResult_high bus loadNatural inside high

/-- An access of a 64-bit bus. -/
def accessAt (write : Bool) (size : LsSize) (addr : Nat) : LsuReq {} :=
  { qtag := 0, qwrite := write, qsigned := true, qaddr := BitVec.ofNat _ addr,
    qdata := BitVec.ofNat _ 0x8321, qsize := size, qamo := .amoNone, qmcast := 0, qvalid := true }

/-- The upper byte of a stored half-word, as a boxed load sees it. -/
theorem roundTrip_byte :
    RoundTrip true (accessAt true .halfWord 6) (accessAt false .byte 7) 0 :=
  roundTrip {} (Or.inr rfl) true _ _ ⟨by decide, by decide⟩ ⟨by decide, by decide⟩ 0

end SnitchCluster.Core
