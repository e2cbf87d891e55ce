/-
# Testbench.Clint -- software interrupts

A hart sets and clears the pending bit of another one in the word of the `msip` array that holds it,
and the testbench turns the array into wires.  The bits are always the pending ones
(`run_pending`).  But `snrt_int_sw_get` does not mask the bits above the one it is asked for, and
`clint_tick` reads word `i / 32` at byte `i / 32`: both are right for all harts exactly if no hart
but the first is pending (`delivered_iff`).
-/
import SnitchCluster.Testbench.GlobalMemory

namespace SnitchCluster.Testbench.Clint

open Theory GlobalMemory

/-! ## The code -/

/-- A little-endian word of four bytes. -/
def wordOf (byte : Nat → Byte) : BitVec 32 := byte 3 ++ byte 2 ++ byte 1 ++ byte 0

def bytesOf (word : BitVec 32) : Buffer := ⟨4, fun k => (word >>> (8 * k)).setWidth 8⟩

def loadWord (addr : BitVec 64) (fuel : Nat) (mem : GlobalMemory) : Option (BitVec 32) :=
  (mem.read addr 4 fuel ⟨⟨4, fun _ => 0⟩, true⟩).map fun s => wordOf s.data.byte

def storeWord (addr : BitVec 64) (word : BitVec 32) (fuel : Nat) (mem : GlobalMemory) :
    Option GlobalMemory :=
  (write addr 4 (bytesOf word) none fuel ⟨mem, true⟩).map (·.mem)

/-- The address of word `hartid / 32` of the `msip` array. -/
def snrt_clint_msip_ptr (clint_base hartid : BitVec 32) : BitVec 64 :=
  clint_base.setWidth 64 + BitVec.ofNat 64 (4 * (hartid.toNat / 32))

section Harts

variable (clint_base : BitVec 32) (fuel : Nat)

def snrt_int_sw_clear (hartid : BitVec 32) (mem : GlobalMemory) : Option GlobalMemory := do
  let word ← loadWord (snrt_clint_msip_ptr clint_base hartid) fuel mem
  let word := word &&& ~~~(1#32 <<< (hartid &&& 0x1f))
  storeWord (snrt_clint_msip_ptr clint_base hartid) word fuel mem

def snrt_int_sw_set (hartid : BitVec 32) (mem : GlobalMemory) : Option GlobalMemory := do
  let word ← loadWord (snrt_clint_msip_ptr clint_base hartid) fuel mem
  let word := word ||| 1#32 <<< (hartid &&& 0x1f)
  storeWord (snrt_clint_msip_ptr clint_base hartid) word fuel mem

def snrt_int_sw_get (hartid : BitVec 32) (mem : GlobalMemory) : Option (BitVec 32) := do
  let word ← loadWord (snrt_clint_msip_ptr clint_base hartid) fuel mem
  return word >>> (hartid &&& 0x1f)

/-- A call, which the mutex makes atomic. -/
structure Call where
  hartid : BitVec 32
  set : Bool

def call (mem : GlobalMemory) (c : Call) : Option GlobalMemory :=
  if c.set then snrt_int_sw_set clint_base fuel c.hartid mem
  else snrt_int_sw_clear clint_base fuel c.hartid mem

/-- The calls of all harts, in the order in which they get the mutex. -/
def run (calls : List Call) (mem : GlobalMemory) : Option GlobalMemory :=
  calls.foldlM (call clint_base fuel) mem

/-- The loop of `clint_tick`: the word that was read last, and the wires. -/
structure Tick where
  read_val : BitVec 32
  msip : Nat → Byte

/-- An iteration of `clint_tick`. -/
def tick (mem : GlobalMemory) (s : Tick) (i : Nat) : Option Tick :=
  let read_val := if i % 32 = 0 then
      loadWord (clint_base.setWidth 64 + BitVec.ofNat 64 (i / 32)) fuel mem
    else some s.read_val
  read_val.map fun read_val =>
    ⟨read_val, Function.update s.msip i (if read_val &&& 1#32 <<< (i % 32) ≠ 0 then 1 else 0)⟩

def clint_tick (num_cores : BitVec 32) (mem : GlobalMemory) (msip : Nat → Byte) :
    Option (Nat → Byte) :=
  ((List.range num_cores.toNat).foldlM (tick clint_base fuel mem) ⟨0, msip⟩).map (·.msip)

end Harts

/-! ## Words -/

theorem wordOf_bit (byte : Nat → Byte) {i : Nat} (small : i < 32) :
    (wordOf byte).getLsbD i = (byte (i / 8)).getLsbD (i % 8) := by
  have cases : i / 8 = 0 ∨ i / 8 = 1 ∨ i / 8 = 2 ∨ i / 8 = 3 := by omega
  simp only [wordOf, BitVec.getLsbD_append]
  rcases cases with eq | eq | eq | eq <;> rw [eq]
  · rw [if_pos (by omega), Nat.mod_eq_of_lt (by omega)]
  · rw [if_neg (by omega), if_pos (by omega)]
    congr 1
    omega
  · rw [if_neg (by omega), if_neg (by omega), if_pos (by omega)]
    congr 1
    omega
  · rw [if_neg (by omega), if_neg (by omega), if_neg (by omega)]
    congr 1
    omega

theorem bytesOf_bit (word : BitVec 32) (k : Nat) {b : Nat} (small : b < 8) :
    ((bytesOf word).byte k).getLsbD b = word.getLsbD (8 * k + b) := by
  simp [bytesOf, small]

section Accesses

variable {addr : BitVec 64} {fuel : Nat} {mem : GlobalMemory}

variable (mem) in
theorem load_word (below : addr.toNat + 4 ≤ 2 ^ 64 - 4096) (enough : 2 ^ 64 < fuel) :
    ∃ word, loadWord addr fuel mem = some word ∧
      ∀ i < 32, word.getLsbD i = (mem.byte (addr + BitVec.ofNat 64 (i / 8))).getLsbD (i % 8) := by
  obtain ⟨t, read, done⟩ := read_bytes mem addr 4 ⟨⟨4, fun _ => 0⟩, true⟩ below enough
  refine ⟨wordOf t.data.byte, by rw [loadWord, read]; rfl, fun i small => ?_⟩
  rw [wordOf_bit t.data.byte small, done.byte, if_pos (by change i / 8 < 4; omega)]

theorem store_word (plain : mem.mappings = []) (word : BitVec 32)
    (below : addr.toNat + 4 ≤ 2 ^ 64 - 4096) (enough : 2 ^ 64 < fuel) :
    ∃ mem', storeWord addr word fuel mem = some mem' ∧ mem'.mappings = [] ∧
      ∀ j : BitVec 64, mem'.byte j =
        if addr.toNat ≤ j.toNat ∧ j.toNat < addr.toNat + 4 then
          (bytesOf word).byte (j.toNat - addr.toNat)
        else mem.byte j := by
  obtain ⟨t, wrote, done⟩ := write_bytes (bytesOf word) none addr 4 ⟨mem, true⟩ plain below enough
  refine ⟨t.mem, by rw [storeWord, wrote]; rfl, done.mappings, fun j => ?_⟩
  simpa [strobed] using done.byte j

end Accesses

/-! ## Pending bits -/

/-- The bytes of the array. -/
def msipBytes (num_cores : BitVec 32) : Nat := 4 * ((num_cores.toNat + 31) / 32)

/-- The address of a byte of the array. -/
def msipByte (clint_base : BitVec 32) (a : Nat) : BitVec 64 :=
  clint_base.setWidth 64 + BitVec.ofNat 64 a

/-- The bits of the array are the pending ones. -/
structure Pending (clint_base num_cores : BitVec 32) (pending : Nat → Bool) (mem : GlobalMemory) :
    Prop where
  mappings : mem.mappings = []
  bit : ∀ a < msipBytes num_cores, ∀ b < 8,
    (mem.byte (msipByte clint_base a)).getLsbD b = pending (8 * a + b)

section Pending

variable {clint_base num_cores : BitVec 32} {pending : Nat → Bool} {mem : GlobalMemory} {fuel : Nat}

theorem msipBytes_le (num_cores : BitVec 32) : msipBytes num_cores ≤ 2 ^ 32 := by
  have small := num_cores.isLt
  rw [msipBytes]
  omega

theorem toNat_msipByte {a : Nat} (small : a ≤ 2 ^ 32) :
    (msipByte clint_base a).toNat = clint_base.toNat + a := by
  have base := clint_base.isLt
  have wide : (clint_base.setWidth 64).toNat = clint_base.toNat := by
    rw [BitVec.toNat_setWidth]
    omega
  rw [msipByte, toNat_offset _ _ (by omega), wide]

section

variable (inv : Pending clint_base num_cores pending mem) (enough : 2 ^ 64 < fuel) {a : Nat}
    (inside : a + 4 ≤ msipBytes num_cores)

include inv enough inside

/-- **A word from a byte of the array on.** -/
theorem Pending.load : ∃ word, loadWord (msipByte clint_base a) fuel mem = some word ∧
      ∀ i < 32, word.getLsbD i = pending (8 * a + i) := by
  have most := msipBytes_le num_cores
  have base := clint_base.isLt
  have low : (msipByte clint_base a).toNat + 4 ≤ 2 ^ 64 - 4096 := by
    rw [toNat_msipByte (by omega)]
    omega
  obtain ⟨word, loaded, bits⟩ := load_word mem low enough
  refine ⟨word, loaded, fun i small => ?_⟩
  have place : msipByte clint_base a + BitVec.ofNat 64 (i / 8) =
      msipByte clint_base (a + i / 8) := by
    rw [msipByte, msipByte, BitVec.add_assoc, BitVec.ofNat_add]
  rw [bits i small, place, inv.bit (a + i / 8) (by omega) (i % 8) (by omega)]
  congr 1
  omega

/-- **A word of the array that is written.** -/
theorem Pending.store (word : BitVec 32) :
    ∃ mem', storeWord (msipByte clint_base a) word fuel mem = some mem' ∧
      Pending clint_base num_cores (fun q =>
        if 8 * a ≤ q ∧ q < 8 * a + 32 then word.getLsbD (q - 8 * a) else pending q) mem' := by
  have most := msipBytes_le num_cores
  have base := clint_base.isLt
  have low : (msipByte clint_base a).toNat + 4 ≤ 2 ^ 64 - 4096 := by
    rw [toNat_msipByte (by omega)]
    omega
  obtain ⟨mem', stored, plain, bytes⟩ := store_word inv.mappings word low enough
  refine ⟨mem', stored, plain, fun c small b bit => ?_⟩
  rw [bytes, toNat_msipByte (by omega), toNat_msipByte (by omega)]
  by_cases here : a ≤ c ∧ c < a + 4
  · rw [if_pos (by omega), if_pos (by omega), bytesOf_bit word _ bit]
    congr 1
    omega
  · rw [if_neg (by omega), if_neg (by omega), inv.bit c small b bit]

end

theorem toNat_bit (hartid : BitVec 32) : (hartid &&& 0x1f).toNat = hartid.toNat % 32 := by
  rw [BitVec.toNat_and]
  exact Nat.and_two_pow_sub_one_eq_mod hartid.toNat 5

theorem mask_bit (k i : Nat) (small : i < 32) : (1#32 <<< k).getLsbD i = decide (i = k) := by
  simp only [BitVec.getLsbD_shiftLeft, BitVec.getLsbD_one, small]
  grind

theorem word_inside {hartid : BitVec 32} (hart : hartid < num_cores) :
    4 * (hartid.toNat / 32) + 4 ≤ msipBytes num_cores := by
  rw [BitVec.lt_def] at hart
  rw [msipBytes]
  omega

/-- **A call changes the bit of its hart.** -/
theorem Pending.call (inv : Pending clint_base num_cores pending mem) (enough : 2 ^ 64 < fuel)
    {c : Call} (hart : c.hartid < num_cores) :
    ∃ mem', call clint_base fuel mem c = some mem' ∧
      Pending clint_base num_cores (Function.update pending c.hartid.toNat c.set) mem' := by
  obtain ⟨word, loaded, bits⟩ := inv.load enough (word_inside hart)
  have written (new : BitVec 32)
      (new_bit : ∀ i < 32,
        new.getLsbD i = if i = c.hartid.toNat % 32 then c.set else word.getLsbD i) :
      ∃ mem', storeWord (snrt_clint_msip_ptr clint_base c.hartid) new fuel mem = some mem' ∧
        Pending clint_base num_cores (Function.update pending c.hartid.toNat c.set) mem' := by
    obtain ⟨mem', stored, after⟩ := inv.store enough (word_inside hart) new
    refine ⟨mem', stored, after.mappings, fun a small b bit => (after.bit a small b bit).trans ?_⟩
    by_cases here : 8 * (4 * (c.hartid.toNat / 32)) ≤ 8 * a + b ∧
        8 * a + b < 8 * (4 * (c.hartid.toNat / 32)) + 32
    · rw [if_pos here, new_bit _ (by omega), bits _ (by omega)]
      rcases eq_or_ne (8 * a + b) c.hartid.toNat with same | other
      · rw [if_pos (by omega), same, Function.update_self]
      · rw [if_neg (by omega), Function.update_of_ne other]
        congr 1
        omega
    · rw [if_neg here, Function.update_of_ne (by omega)]
  have loaded : loadWord (snrt_clint_msip_ptr clint_base c.hartid) fuel mem = some word := loaded
  rw [Clint.call]
  cases set : c.set with
  | true =>
    rw [if_pos rfl, snrt_int_sw_set, loaded, set.symm]
    refine written _ fun i small => ?_
    rw [set, BitVec.getLsbD_or, BitVec.shiftLeft_eq', toNat_bit, mask_bit _ i small]
    split <;> simp [*]
  | false =>
    rw [if_neg (by simp), snrt_int_sw_clear, loaded, set.symm]
    refine written _ fun i small => ?_
    rw [set, BitVec.getLsbD_and, BitVec.getLsbD_not, BitVec.shiftLeft_eq', toNat_bit,
      mask_bit _ i small]
    split <;> simp [*]

/-- The hart's bit after some calls. -/
def after (calls : List Call) (pending : Nat → Bool) : Nat → Bool :=
  calls.foldl (fun pending c => Function.update pending c.hartid.toNat c.set) pending

/-- **The array holds the pending bits**, whatever the harts have called. -/
theorem run_pending {calls : List Call} (inv : Pending clint_base num_cores pending mem)
    (enough : 2 ^ 64 < fuel) (harts : ∀ c ∈ calls, c.hartid < num_cores) :
    ∃ mem', run clint_base fuel calls mem = some mem' ∧
      Pending clint_base num_cores (after calls pending) mem' := by
  induction calls generalizing mem pending with
  | nil => exact ⟨mem, rfl, inv⟩
  | cons c calls ih =>
    obtain ⟨next, called, kept⟩ := inv.call enough (harts c List.mem_cons_self)
    obtain ⟨mem', ran, done⟩ := ih kept fun c inside => harts c (List.mem_cons_of_mem _ inside)
    refine ⟨mem', ?_, done⟩
    rw [run, List.foldlM_cons, called]
    exact ran

/-- What a hart reads of itself: the bits from its own on. -/
theorem Pending.get (inv : Pending clint_base num_cores pending mem) (enough : 2 ^ 64 < fuel)
    {hartid : BitVec 32} (hart : hartid < num_cores) :
    ∃ ret, snrt_int_sw_get clint_base fuel hartid mem = some ret ∧
      ∀ i, ret.getLsbD i = (decide (hartid.toNat % 32 + i < 32) && pending (hartid.toNat + i)) := by
  obtain ⟨word, loaded, bits⟩ := inv.load enough (word_inside hart)
  have loaded : loadWord (snrt_clint_msip_ptr clint_base hartid) fuel mem = some word := loaded
  refine ⟨word >>> (hartid &&& 0x1f), by rw [snrt_int_sw_get, loaded]; rfl, fun i => ?_⟩
  rw [BitVec.ushiftRight_eq', toNat_bit, BitVec.getLsbD_ushiftRight]
  by_cases small : hartid.toNat % 32 + i < 32
  · rw [bits _ small, decide_eq_true small, Bool.true_and]
    congr 1
    omega
  · simp [small, BitVec.getLsbD_of_ge, Nat.le_of_not_lt small]

theorem bit_set (word : BitVec 32) {k : Nat} (small : k < 32) :
    word &&& 1#32 <<< k ≠ 0 ↔ word.getLsbD k = true := by
  constructor
  · intro some_bit
    by_contra clear
    refine some_bit (BitVec.eq_of_getLsbD_eq fun i inside => ?_)
    rw [BitVec.getLsbD_and, mask_bit k i inside]
    rcases eq_or_ne i k with rfl | other
    · simpa using clear
    · simp [other]
  · intro set none
    have bit := congrArg (BitVec.getLsbD · k) none
    simp [BitVec.getLsbD_and, mask_bit k k small, set] at bit

/-- `i` wires are driven, and the word that was read last is still good. -/
structure Ticked (pending : Nat → Bool) (i : Nat) (s : Tick) : Prop where
  wires : ∀ j < i, s.msip j = if pending (8 * (j / 32) + j % 32) then 1 else 0
  last : i % 32 ≠ 0 → ∀ b < 32, s.read_val.getLsbD b = pending (8 * (i / 32) + b)

theorem Pending.tick (inv : Pending clint_base num_cores pending mem) (enough : 2 ^ 64 < fuel)
    {i : Nat} (inside : i < num_cores.toNat) {s : Tick} (so_far : Ticked pending i s) :
    ∃ s', tick clint_base fuel mem s i = some s' ∧ Ticked pending (i + 1) s' := by
  obtain ⟨read_val, read, bits⟩ : ∃ read_val,
      (if i % 32 = 0 then loadWord (msipByte clint_base (i / 32)) fuel mem
        else some s.read_val) = some read_val ∧
      ∀ b < 32, read_val.getLsbD b = pending (8 * (i / 32) + b) := by
    split
    · exact inv.load enough (by rw [msipBytes]; omega)
    · next same => exact ⟨_, rfl, so_far.last same⟩
  have ticked : Clint.tick clint_base fuel mem s i = some ⟨read_val,
      Function.update s.msip i (if read_val &&& 1#32 <<< (i % 32) ≠ 0 then 1 else 0)⟩ :=
    congrArg (Option.map _) read
  refine ⟨_, ticked, fun j small => ?_, fun same b small => ?_⟩
  · have value := bit_set read_val (k := i % 32) (by omega)
    rcases eq_or_ne j i with rfl | other
    · simp only [Function.update_self, value, bits _ (Nat.mod_lt _ (by decide))]
    · simp only [Function.update_of_ne other]
      exact so_far.wires j (by omega)
  · rw [bits b small]
    congr 1
    omega

/-- **What the wires show**: for word `i / 32`, the bits from byte `i / 32` on. -/
theorem Pending.clint_tick (inv : Pending clint_base num_cores pending mem) (enough : 2 ^ 64 < fuel)
    (msip : Nat → Byte) :
    ∃ msip', clint_tick clint_base fuel num_cores mem msip = some msip' ∧
      ∀ j < num_cores.toNat, msip' j = if pending (8 * (j / 32) + j % 32) then 1 else 0 := by
  have ticks : ∀ i ≤ num_cores.toNat, ∃ s,
      (List.range i).foldlM (Clint.tick clint_base fuel mem) ⟨0, msip⟩ = some s ∧
        Ticked pending i s := by
    intro i inside
    induction i with
    | zero => exact ⟨_, rfl, nofun, by simp⟩
    | succ i ih =>
      obtain ⟨s, ran, so_far⟩ := ih (by omega)
      obtain ⟨s', ticked, done⟩ := inv.tick enough inside so_far
      refine ⟨s', ?_, done⟩
      rw [List.range_succ, List.foldlM_append, ran]
      simp [ticked]
  obtain ⟨s, ran, done⟩ := ticks num_cores.toNat (le_refl _)
  exact ⟨s.msip, by rw [Clint.clint_tick, ran]; rfl, done.wires⟩

end Pending

/-! ## Delivery -/

section Delivery

variable {clint_base num_cores : BitVec 32} {calls : List Call}

/-- The last call for a hart was a set. -/
def lastSet (calls : List Call) (hartid : BitVec 32) : Bool :=
  (calls.filter (·.hartid = hartid)).getLast?.elim false (·.set)

/-- After the calls, from an empty array, every hart reads its own bit and sees it on its wire. -/
def Delivered (clint_base num_cores : BitVec 32) (calls : List Call) : Prop :=
  ∀ (mem : GlobalMemory) (msip : Nat → Byte) (fuel : Nat), mem.mappings = [] →
    (∀ a < msipBytes num_cores, mem.byte (msipByte clint_base a) = 0) → 2 ^ 64 < fuel →
      ∃ mem' msip', run clint_base fuel calls mem = some mem' ∧
        clint_tick clint_base fuel num_cores mem' msip = some msip' ∧
        ∀ hartid < num_cores,
          snrt_int_sw_get clint_base fuel hartid mem' =
              some (if lastSet calls hartid then 1 else 0) ∧
            msip' hartid.toNat = if lastSet calls hartid then 1 else 0

theorem after_append (calls : List Call) (c : Call) (pending : Nat → Bool) :
    after (calls ++ [c]) pending = Function.update (after calls pending) c.hartid.toNat c.set := by
  simp [after]

theorem after_lastSet (hartid : BitVec 32) :
    after calls (fun _ => false) hartid.toNat = lastSet calls hartid := by
  induction calls using List.reverseRecOn with
  | nil => rfl
  | append_singleton calls c ih =>
    rw [after_append, lastSet, List.filter_append]
    rcases eq_or_ne c.hartid hartid with rfl | other
    · simp
    · have apart : hartid.toNat ≠ c.hartid.toNat := fun eq =>
        other (BitVec.eq_of_toNat_eq eq).symm
      rw [Function.update_of_ne apart]
      simpa [other, lastSet] using ih

/-- Only harts have bits. -/
theorem after_none (harts : ∀ c ∈ calls, c.hartid < num_cores) {q : Nat}
    (outside : num_cores.toNat ≤ q) : after calls (fun _ => false) q = false := by
  induction calls using List.reverseRecOn with
  | nil => rfl
  | append_singleton calls c ih =>
    have small := harts c (by simp)
    rw [BitVec.lt_def] at small
    rw [after_append, Function.update_of_ne (by omega)]
    exact ih fun c inside => harts c (by simp [inside])

/-- The one state of the array that both views agree on. -/
def OnlyFirst (pending : Nat → Bool) : Prop := ∀ q, q ≠ 0 → pending q = false

/-- **Both views are right exactly if only the first hart is pending.** -/
theorem views_agree_iff {n : Nat} {pending : Nat → Bool} (none : ∀ q, n ≤ q → pending q = false) :
    (∀ h < n, (∀ i, i ≠ 0 → h % 32 + i < 32 → pending (h + i) = false) ∧
      pending (8 * (h / 32) + h % 32) = pending h) ↔ OnlyFirst pending := by
  constructor
  · intro agree q
    induction q using Nat.strongRecOn with
    | _ q ih =>
      intro nonzero
      by_cases inside : n ≤ q
      · exact none q inside
      rcases Nat.eq_zero_or_pos (q % 32) with aligned | within
      · -- The wire of an aligned hart shows the bit of a smaller one.
        rw [← (agree q (by omega)).2]
        exact ih _ (by omega) (by omega)
      · -- The first hart of the word reads all bits of it.
        have above := (agree (q - q % 32) (by omega)).1 (q % 32) (by omega) (by omega)
        rwa [Nat.sub_add_cancel (Nat.mod_le q 32)] at above
  · intro only h _
    refine ⟨fun i nonzero _ => only _ (by omega), ?_⟩
    rcases Nat.eq_zero_or_pos h with rfl | pos
    · rfl
    · rw [only h (by omega), only _ (by omega)]

theorem bit_word_iff (ret : BitVec 32) (p : Bool) :
    ret = (if p then 1 else 0) ↔
      ret.getLsbD 0 = p ∧ ∀ i, i ≠ 0 → ret.getLsbD i = false := by
  have value (i : Nat) : (if p then 1 else 0 : BitVec 32).getLsbD i = (decide (i = 0) && p) := by
    cases p <;> simp [BitVec.getLsbD_one]
  constructor
  · rintro rfl
    exact ⟨by rw [value]; rfl, fun i nonzero => by rw [value, decide_eq_false nonzero]; rfl⟩
  · rintro ⟨first, others⟩
    refine BitVec.eq_of_getLsbD_eq fun i _ => ?_
    rcases eq_or_ne i 0 with rfl | nonzero
    · rw [value, first]
      rfl
    · rw [value, others i nonzero, decide_eq_false nonzero]
      rfl

/-- What the two views of a hart come down to. -/
theorem Pending.hart_iff {pending : Nat → Bool} {mem : GlobalMemory} {fuel : Nat}
    (inv : Pending clint_base num_cores pending mem) (enough : 2 ^ 64 < fuel) {hartid : BitVec 32}
    (hart : hartid < num_cores) {wire : Byte}
    (shows : wire = if pending (8 * (hartid.toNat / 32) + hartid.toNat % 32) then 1 else 0) :
    (snrt_int_sw_get clint_base fuel hartid mem = some (if pending hartid.toNat then 1 else 0) ∧
      wire = if pending hartid.toNat then 1 else 0) ↔
    (∀ i, i ≠ 0 → hartid.toNat % 32 + i < 32 → pending (hartid.toNat + i) = false) ∧
      pending (8 * (hartid.toNat / 32) + hartid.toNat % 32) = pending hartid.toNat := by
  obtain ⟨ret, got, bits⟩ := inv.get enough hart
  have first : ret.getLsbD 0 = pending hartid.toNat := by
    rw [bits, decide_eq_true (by omega), Bool.true_and, Nat.add_zero]
  rw [got, Option.some_inj, bit_word_iff, shows]
  refine and_congr ⟨fun same i nonzero small => ?_, fun clear => ⟨first, fun i nonzero => ?_⟩⟩ ?_
  · simpa [bits, small] using same.2 i nonzero
  · rw [bits, Bool.and_eq_false_iff, decide_eq_false_iff_not]
    exact or_iff_not_imp_left.mpr fun small => clear i nonzero (not_not.mp small)
  · cases pending hartid.toNat <;>
      cases pending (8 * (hartid.toNat / 32) + hartid.toNat % 32) <;> decide

theorem hart_index {h : Nat} (small : h < num_cores.toNat) : (BitVec.ofNat 32 h).toNat = h := by
  have fits := num_cores.isLt
  rw [BitVec.toNat_ofNat, Nat.mod_eq_of_lt (by omega)]

theorem onlyFirst_iff (harts : ∀ c ∈ calls, c.hartid < num_cores) :
    OnlyFirst (after calls fun _ => false) ↔
      ∀ hartid, hartid ≠ 0 → lastSet calls hartid = false := by
  constructor
  · intro only hartid nonzero
    rw [← after_lastSet]
    exact only _ fun zero => nonzero (BitVec.eq_of_toNat_eq zero)
  · intro clear q nonzero
    by_cases outside : num_cores.toNat ≤ q
    · exact after_none harts outside
    have index := hart_index (Nat.lt_of_not_le outside)
    rw [← index, after_lastSet]
    exact clear _ fun zero => nonzero (by rw [← index, zero]; rfl)

variable (clint_base) in
/-- The calls and the tick end, and a hart's views are right exactly if they agree on its bits. -/
theorem run_views (harts : ∀ c ∈ calls, c.hartid < num_cores) (mem : GlobalMemory) {fuel : Nat}
    (plain : mem.mappings = []) (msip : Nat → Byte)
    (empty : ∀ a < msipBytes num_cores, mem.byte (msipByte clint_base a) = 0)
    (enough : 2 ^ 64 < fuel) :
    ∃ mem' msip', run clint_base fuel calls mem = some mem' ∧
      clint_tick clint_base fuel num_cores mem' msip = some msip' ∧
      ∀ hartid < num_cores,
        ((snrt_int_sw_get clint_base fuel hartid mem' =
            some (if lastSet calls hartid then 1 else 0) ∧
          msip' hartid.toNat = if lastSet calls hartid then 1 else 0) ↔
        (∀ i, i ≠ 0 → hartid.toNat % 32 + i < 32 →
          after calls (fun _ => false) (hartid.toNat + i) = false) ∧
        after calls (fun _ => false) (8 * (hartid.toNat / 32) + hartid.toNat % 32) =
          after calls (fun _ => false) hartid.toNat) := by
  have start : Pending clint_base num_cores (fun _ => false) mem :=
    ⟨plain, fun a small b _ => by simp [empty a small]⟩
  obtain ⟨mem', ran, inv⟩ := run_pending start enough harts
  obtain ⟨msip', ticked, wires⟩ := inv.clint_tick enough msip
  refine ⟨mem', msip', ran, ticked, fun hartid hart => ?_⟩
  rw [← after_lastSet]
  exact inv.hart_iff enough hart (wires _ (BitVec.lt_def.mp hart))

theorem Delivered.only_first (harts : ∀ c ∈ calls, c.hartid < num_cores)
    (delivered : Delivered clint_base num_cores calls) :
    OnlyFirst (after calls fun _ => false) := by
  rw [← views_agree_iff fun q => after_none harts]
  intro h small
  have index := hart_index small
  have hart : BitVec.ofNat 32 h < num_cores := by rwa [BitVec.lt_def, index]
  let zero : GlobalMemory := ⟨fun _ => none, ∅, [], fun _ => 0⟩
  have enough : 2 ^ 64 < 2 ^ 64 + 1 := Nat.lt_succ_self _
  obtain ⟨mem', msip', ran, ticked, right⟩ :=
    delivered zero (fun _ => 0) (2 ^ 64 + 1) rfl (fun _ _ => rfl) enough
  obtain ⟨mem'', msip'', ran', ticked', same⟩ :=
    run_views clint_base harts zero rfl (fun _ => 0) (fun _ _ => rfl) enough
  cases ran.symm.trans ran'
  cases ticked.symm.trans ticked'
  have views := (same _ hart).mp (right _ hart)
  rwa [index] at views

/-- **Software interrupts reach exactly the addressed hart**, in what harts read and on their wires,
if and only if no hart but the first was set last. -/
theorem delivered_iff (clint_base num_cores : BitVec 32) (calls : List Call)
    (harts : ∀ c ∈ calls, c.hartid < num_cores) :
    Delivered clint_base num_cores calls ↔
      ∀ hartid, hartid ≠ 0 → lastSet calls hartid = false := by
  rw [← onlyFirst_iff harts]
  refine ⟨Delivered.only_first harts, fun only mem msip fuel plain empty enough => ?_⟩
  have agree := (views_agree_iff fun q => after_none harts).mpr only
  obtain ⟨mem', msip', ran, ticked, same⟩ := run_views clint_base harts mem plain msip empty enough
  exact ⟨mem', msip', ran, ticked, fun hartid hart =>
    (same hartid hart).mpr (agree _ (BitVec.lt_def.mp hart))⟩

/-- Two harts, of which the first sets and clears itself. -/
theorem delivered_first :
    Delivered 0xFFFF0000#32 2#32 [⟨0, true⟩, ⟨0, false⟩] ↔
      ∀ hartid, hartid ≠ 0 → lastSet [⟨0, true⟩, ⟨0, false⟩] hartid = false :=
  delivered_iff 0xFFFF0000#32 2#32 [⟨0, true⟩, ⟨0, false⟩] (by decide)

/-- The second of two harts is set, and the first one reads it too. -/
theorem neighbour_read : ¬Delivered 0xFFFF0000#32 2#32 [⟨1, true⟩] := by
  intro delivered
  have harts : ∀ c ∈ ([⟨1, true⟩] : List Call), c.hartid < 2#32 := by decide
  have clear := delivered.only_first harts 1 (by decide)
  exact absurd clear (by decide)

end Delivery

end SnitchCluster.Testbench.Clint
