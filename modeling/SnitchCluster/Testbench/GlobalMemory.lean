/-
# Testbench.GlobalMemory -- memory of the testbench, by pages

`GlobalMemory::write` and `read` go through a range page by page, in arithmetic of 64 bits.  Below
the last page of the address space both are what they seem to be, byte by byte (`write_bytes`,
`read_bytes`).  A range that ends inside the last page is gone through for ever, since the address
of the next page wraps (`write_diverges`); and one that ends at the top of the space is not touched
at all (`write_top`).
-/
import Mathlib.Data.Finset.Insert
import Mathlib.Logic.Function.Basic
import SnitchCluster.Theory.Loops
import SnitchCluster.Theory.While

namespace SnitchCluster.Testbench

open Theory Theory.Loops

/-! ## The code -/

abbrev Byte := BitVec 8

/-- An array that is passed by a pointer, which does not know its size. -/
structure Buffer where
  size : Nat
  byte : Nat → Byte

/-- A range of the memory that lies in the host, from address `into` on. -/
structure Mapping where
  base : BitVec 64
  size : BitVec 64
  into : Nat

structure GlobalMemory where
  pages : BitVec 64 → Option (Nat → Byte)
  touched : Finset (BitVec 64)
  mappings : List Mapping
  host : Nat → Byte

def ADDR_SHIFT : Nat := 12

def SIZE_OF_PAGE : Nat := 1 <<< ADDR_SHIFT

namespace GlobalMemory

def find_mapping (mem : GlobalMemory) (addr : BitVec 64) : Option Nat :=
  (mem.mappings.find? fun m => m.base ≤ addr ∧ m.base + m.size > addr).map fun m =>
    m.into + (addr - m.base).toNat

/-- The memory in the middle of an access, and whether all indices so far were inside. -/
structure Access where
  mem : GlobalMemory
  inside : Bool

/-- `!strb || strb[data_idx]`: an entry outside of the array counts as clear. -/
def strobed (strb : Option Buffer) (data_idx : Nat) : Bool :=
  strb.elim true fun strb => data_idx < strb.size ∧ strb.byte data_idx ≠ 0

/-- The indices that a byte of `write` uses lie in their arrays. -/
def covered (data : Buffer) (strb : Option Buffer) (data_idx : Nat) : Bool :=
  strb.elim true (fun strb => data_idx < strb.size) &&
    (!strobed strb data_idx || data_idx < data.size)

def writeByte (page_idx : BitVec 64) (data : Buffer) (strb : Option Buffer) (i : BitVec 64)
    (data_idx : Nat) (s : Access × Bool) : Access × Bool :=
  let inside := s.1.inside && covered data strb data_idx
  if strobed strb data_idx then
    match s.1.mem.find_mapping i with
    | some host =>
      let mem := { s.1.mem with host := Function.update s.1.mem.host host (data.byte data_idx) }
      (⟨mem, inside⟩, s.2)
    | none =>
      let page := Function.update ((s.1.mem.pages page_idx).getD fun _ => 0)
        (i.toNat % SIZE_OF_PAGE) (data.byte data_idx)
      let mem := { s.1.mem with pages := Function.update s.1.mem.pages page_idx (some page) }
      (⟨mem, inside && i.toNat % SIZE_OF_PAGE < SIZE_OF_PAGE⟩, true)
  else (⟨s.1.mem, inside⟩, s.2)

/-- Where a page loop is: at an address and an index of the data. -/
structure Cursor where
  addr : BitVec 64
  data_idx : Nat

/-- The start of the next page. -/
def nextPage (addr : BitVec 64) : BitVec 64 := (addr >>> ADDR_SHIFT + 1) <<< ADDR_SHIFT

/-- How often `for (i = byte_start; i < byte_end; i++)` runs. -/
def steps (byte_start byte_end : BitVec 64) : Nat := byte_end.toNat - byte_start.toNat

/-- A page that does not exist yet is zero. -/
def allocate (mem : GlobalMemory) (page_idx : BitVec 64) : GlobalMemory :=
  { mem with
    pages := Function.update mem.pages page_idx (some ((mem.pages page_idx).getD fun _ => 0)) }

def touch (mem : GlobalMemory) (page_idx : BitVec 64) : GlobalMemory :=
  { mem with touched := insert page_idx mem.touched }

/-- An iteration of the page loop of `write`. -/
def writePage (data : Buffer) (strb : Option Buffer) (end_ : BitVec 64) (s : Access × Cursor) :
    Access × Cursor :=
  let byte_start := s.2.addr
  let page_idx := byte_start >>> ADDR_SHIFT
  let addr := nextPage byte_start
  let byte_end := if end_ < addr then end_ else addr
  let n := steps byte_start byte_end
  let bytes := loop n (fun k => writeByte page_idx data strb
    (byte_start + BitVec.ofNat 64 k) (s.2.data_idx + k))
    (⟨s.1.mem.allocate page_idx, s.1.inside⟩, false)
  let mem := if bytes.2 then bytes.1.mem.touch page_idx else bytes.1.mem
  (⟨mem, bytes.1.inside⟩, ⟨addr, s.2.data_idx + n⟩)

def write (addr len : BitVec 64) (data : Buffer) (strb : Option Buffer) (fuel : Nat)
    (s : Access) : Option Access :=
  let end_ := addr + len
  (whileLoop (fun s : Access × Cursor => s.2.addr < end_)
    (fun s => some (writePage data strb end_ s)) fuel (s, ⟨addr, 0⟩)).map (·.1)

/-- What `read` finds at an address on a page. -/
def byteOn (mem : GlobalMemory) (page_idx i : BitVec 64) : Byte :=
  match mem.find_mapping i with
  | some host => mem.host host
  | none =>
    match mem.pages page_idx with
    | some page => page (i.toNat % SIZE_OF_PAGE)
    | none => 0

/-- The contents of the memory. -/
def byte (mem : GlobalMemory) (i : BitVec 64) : Byte := mem.byteOn (i >>> ADDR_SHIFT) i

/-- The buffer in the middle of a `read`. -/
structure Reading where
  data : Buffer
  inside : Bool

def readByte (mem : GlobalMemory) (page_idx i : BitVec 64) (data_idx : Nat) (s : Reading) :
    Reading where
  data := { s.data with byte := Function.update s.data.byte data_idx (mem.byteOn page_idx i) }
  inside := s.inside && data_idx < s.data.size && i.toNat % SIZE_OF_PAGE < SIZE_OF_PAGE

/-- An iteration of the page loop of `read`, which adds no page. -/
def readPage (mem : GlobalMemory) (end_ : BitVec 64) (s : Reading × Cursor) : Reading × Cursor :=
  let byte_start := s.2.addr
  let page_idx := byte_start >>> ADDR_SHIFT
  let addr := nextPage byte_start
  let byte_end := if end_ < addr then end_ else addr
  let n := steps byte_start byte_end
  (loop n (fun k => readByte mem page_idx (byte_start + BitVec.ofNat 64 k) (s.2.data_idx + k)) s.1,
    ⟨addr, s.2.data_idx + n⟩)

def read (mem : GlobalMemory) (addr len : BitVec 64) (fuel : Nat) (s : Reading) : Option Reading :=
  let end_ := addr + len
  (whileLoop (fun s : Reading × Cursor => s.2.addr < end_)
    (fun s => some (readPage mem end_ s)) fuel (s, ⟨addr, 0⟩)).map (·.1)

/-! ## Addresses -/

theorem SIZE_OF_PAGE_eq : SIZE_OF_PAGE = 4096 := rfl

@[simp] theorem toNat_page (addr : BitVec 64) :
    (addr >>> ADDR_SHIFT).toNat = addr.toNat / 4096 := by
  simp [ADDR_SHIFT, BitVec.toNat_ushiftRight, Nat.shiftRight_eq_div_pow]

theorem toNat_nextPage (addr : BitVec 64) (below : addr.toNat < 2 ^ 64 - 4096) :
    (nextPage addr).toNat = (addr.toNat / 4096 + 1) * 4096 := by
  simp only [nextPage, BitVec.toNat_shiftLeft, BitVec.toNat_add, toNat_page, Nat.shiftLeft_eq]
  simp [ADDR_SHIFT]
  omega

/-- The page after the last one is the first one. -/
theorem nextPage_last {addr : BitVec 64} (last : 2 ^ 64 - 4096 ≤ addr.toNat) :
    nextPage addr = 0 := by
  apply BitVec.eq_of_toNat_eq
  simp only [nextPage, BitVec.toNat_shiftLeft, BitVec.toNat_add, toNat_page, Nat.shiftLeft_eq]
  simp [ADDR_SHIFT]
  omega

theorem page_offset_inj {i j : BitVec 64} (page : i >>> ADDR_SHIFT = j >>> ADDR_SHIFT)
    (offset : i.toNat % SIZE_OF_PAGE = j.toNat % SIZE_OF_PAGE) : i = j := by
  have pages := congrArg BitVec.toNat page
  simp only [toNat_page] at pages
  apply BitVec.eq_of_toNat_eq
  simp only [SIZE_OF_PAGE_eq] at offset
  omega

/-! ## Bytes -/

section Bytes

variable {mem : GlobalMemory} {s : Access × Bool} {data : Buffer} {strb : Option Buffer}

theorem find_mapping_none (plain : mem.mappings = []) (i : BitVec 64) :
    mem.find_mapping i = none := by
  simp [find_mapping, plain]

theorem byteOn_plain (plain : mem.mappings = []) (page_idx i : BitVec 64) :
    mem.byteOn page_idx i = ((mem.pages page_idx).getD fun _ => 0) (i.toNat % SIZE_OF_PAGE) := by
  rw [byteOn, find_mapping_none plain]
  cases mem.pages page_idx <;> rfl

theorem byte_allocate (plain : mem.mappings = []) (page_idx j : BitVec 64) :
    (mem.allocate page_idx).byte j = mem.byte j := by
  have after : (mem.allocate page_idx).mappings = [] := plain
  rw [byte, byte, byteOn_plain after, byteOn_plain plain, allocate]
  rcases eq_or_ne (j >>> ADDR_SHIFT) page_idx with rfl | other
  · simp
  · simp [Function.update_of_ne other]

variable (data strb) in
theorem writeByte_mappings (plain : s.1.mem.mappings = []) (page_idx i : BitVec 64) (d : Nat) :
    (writeByte page_idx data strb i d s).1.mem.mappings = [] := by
  rw [writeByte, find_mapping_none plain]
  split <;> exact plain

theorem writeByte_inside (plain : s.1.mem.mappings = []) (page_idx i : BitVec 64) (d : Nat) :
    (writeByte page_idx data strb i d s).1.inside = (s.1.inside && covered data strb d) := by
  have small : i.toNat % SIZE_OF_PAGE < SIZE_OF_PAGE := Nat.mod_lt _ (by decide)
  rw [writeByte, find_mapping_none plain]
  split <;> simp [small]

/-- **A byte is written where it belongs.** -/
theorem writeByte_byte (plain : s.1.mem.mappings = []) (i : BitVec 64) (d : Nat) (j : BitVec 64) :
    (writeByte (i >>> ADDR_SHIFT) data strb i d s).1.mem.byte j =
      if j = i ∧ strobed strb d then data.byte d else s.1.mem.byte j := by
  have after := writeByte_mappings data strb plain (i >>> ADDR_SHIFT) i d
  rw [byte, byteOn_plain after, byte, byteOn_plain plain]
  rw [writeByte, find_mapping_none plain]
  split
  · next set =>
      rcases eq_or_ne (j >>> ADDR_SHIFT) (i >>> ADDR_SHIFT) with same | other
      · rcases eq_or_ne (j.toNat % SIZE_OF_PAGE) (i.toNat % SIZE_OF_PAGE) with here | there
        · simp [set, page_offset_inj same here]
        · have apart : j ≠ i := fun eq => there (eq ▸ rfl)
          simp [same, apart, Function.update_of_ne there]
      · have apart : j ≠ i := fun eq => other (eq ▸ rfl)
        simp [apart, Function.update_of_ne other]
  · next clear => simp [clear]

end Bytes

/-! ## Writing -/

section Writing

variable {data : Buffer} {strb : Option Buffer} {start end_ addr len : BitVec 64} {old : Access}

/-- `d` bytes from `start` on have been written. -/
structure Written (data : Buffer) (strb : Option Buffer) (start : BitVec 64) (old : Access)
    (d : Nat) (new : Access) : Prop where
  mappings : new.mem.mappings = []
  byte : ∀ j : BitVec 64, new.mem.byte j =
    if start.toNat ≤ j.toNat ∧ j.toNat < start.toNat + d ∧ strobed strb (j.toNat - start.toNat) then
      data.byte (j.toNat - start.toNat)
    else old.mem.byte j
  inside : new.inside = true ↔ old.inside = true ∧ ∀ k < d, covered data strb k = true

theorem Written.zero (plain : old.mem.mappings = []) : Written data strb start old 0 old where
  mappings := plain
  byte j := by rw [if_neg (by omega)]
  inside := by simp

theorem Written.allocate {d : Nat} {s : Access} (done : Written data strb start old d s)
    (page_idx : BitVec 64) :
    Written data strb start old d ⟨s.mem.allocate page_idx, s.inside⟩ where
  mappings := done.mappings
  byte j := (byte_allocate done.mappings page_idx j).trans (done.byte j)
  inside := done.inside

/-- Which pages were touched does not show in the bytes. -/
theorem Written.touch {d : Nat} {s : Access} (done : Written data strb start old d s)
    (page_idx : BitVec 64) (any_changed : Bool) :
    Written data strb start old d
      ⟨if any_changed then s.mem.touch page_idx else s.mem, s.inside⟩ := by
  cases any_changed <;> exact ⟨done.mappings, done.byte, done.inside⟩

theorem Written.succ {d : Nat} {s : Access × Bool} {i : BitVec 64}
    (done : Written data strb start old d s.1) (here : i.toNat = start.toNat + d) :
    Written data strb start old (d + 1) (writeByte (i >>> ADDR_SHIFT) data strb i d s).1 where
  mappings := writeByte_mappings data strb done.mappings _ i d
  byte j := by
    rw [writeByte_byte done.mappings, done.byte]
    rcases eq_or_ne j i with rfl | other
    · have offset : j.toNat - start.toNat = d := by omega
      simp [here]
    · have apart : j.toNat ≠ i.toNat := fun eq => other (BitVec.eq_of_toNat_eq eq)
      rw [if_neg fun both => other both.1]
      congr 1
      apply propext
      constructor <;> rintro ⟨above, below, set⟩ <;> exact ⟨above, by omega, set⟩
  inside := by
    rw [writeByte_inside done.mappings, Bool.and_eq_true, done.inside, and_assoc,
      Nat.forall_lt_succ_right]

/-- The address of a byte on the way. -/
theorem toNat_offset (byte_start : BitVec 64) (k : Nat) (room : byte_start.toNat + k < 2 ^ 64) :
    (byte_start + BitVec.ofNat 64 k).toNat = byte_start.toNat + k := by
  rw [BitVec.toNat_add, BitVec.toNat_ofNat, Nat.mod_eq_of_lt (by omega : k < 2 ^ 64),
    Nat.mod_eq_of_lt room]

/-- Where a page loop is: at the next byte, or past the end. -/
def At (start end_ : BitVec 64) (c : Cursor) : Prop :=
  c.addr.toNat ≤ 2 ^ 64 - 4096 ∧ start.toNat ≤ c.addr.toNat ∧
    c.data_idx = min c.addr.toNat end_.toNat - start.toNat

/-- The bytes of an iteration, and where it leaves the cursor. -/
theorem At.page {c : Cursor} (at_ : At start end_ c) (up : c.addr < end_)
    (below : end_.toNat ≤ 2 ^ 64 - 4096) :
    let byte_end := if end_ < nextPage c.addr then end_ else nextPage c.addr
    c.addr.toNat = start.toNat + c.data_idx ∧
      (∀ k < steps c.addr byte_end,
        (c.addr + BitVec.ofNat 64 k).toNat = start.toNat + (c.data_idx + k) ∧
          (c.addr + BitVec.ofNat 64 k) >>> ADDR_SHIFT = c.addr >>> ADDR_SHIFT) ∧
      At start end_ ⟨nextPage c.addr, c.data_idx + steps c.addr byte_end⟩ ∧
      c.addr.toNat < (nextPage c.addr).toNat := by
  obtain ⟨low, after, index⟩ := at_
  rw [BitVec.lt_def] at up
  have next := toNat_nextPage c.addr (by omega)
  have n : steps c.addr (if end_ < nextPage c.addr then end_ else nextPage c.addr) =
      min end_.toNat (nextPage c.addr).toNat - c.addr.toNat := by
    rw [steps]
    split <;> rename_i cut <;> rw [BitVec.lt_def] at cut <;> omega
  refine ⟨by omega, fun k small => ?_, ⟨by simp only; omega, by simp only; omega, ?_⟩, by omega⟩
  · have place := toNat_offset c.addr k (by omega)
    refine ⟨by omega, BitVec.eq_of_toNat_eq ?_⟩
    rw [toNat_page, toNat_page, place]
    omega
  · simp only [n]
    omega

/-- **A page loop below the last page ends, at its end.** -/
theorem pages_end {α : Type} {x : α} (page : α × Cursor → α × Cursor) (Done : Nat → α → Prop)
    (zero : Done 0 x)
    (step : ∀ s : α × Cursor, Done s.2.data_idx s.1 → At addr (addr + len) s.2 →
      s.2.addr < addr + len → (addr + len).toNat ≤ 2 ^ 64 - 4096 →
        Done (page s).2.data_idx (page s).1 ∧ At addr (addr + len) (page s).2 ∧
          s.2.addr.toNat < (page s).2.addr.toNat)
    (below : addr.toNat + len.toNat ≤ 2 ^ 64 - 4096) {fuel : Nat} (enough : 2 ^ 64 < fuel) :
    ∃ t, (whileLoop (fun s : α × Cursor => s.2.addr < addr + len) (fun s => some (page s)) fuel
      (x, ⟨addr, 0⟩)).map (·.1) = some t ∧ Done len.toNat t := by
  have end_eq : (addr + len).toNat = addr.toNat + len.toNat := by
    rw [BitVec.toNat_add, Nat.mod_eq_of_lt (by omega)]
  obtain ⟨t, ended, ⟨done, at_⟩, down⟩ := whileLoop_ends
    (fun s : α × Cursor => s.2.addr < addr + len) (fun s => some (page s)) (s := (x, ⟨addr, 0⟩))
    (fun s => Done s.2.data_idx s.1 ∧ At addr (addr + len) s.2) (fun s => 2 ^ 64 - s.2.addr.toNat)
    ⟨zero, by simp only; omega, le_refl _, by simp only; omega⟩
    (fun s kept up => by
      obtain ⟨done, at_, progress⟩ := step s kept.1 kept.2 (by simpa using up) (by omega)
      exact ⟨_, rfl, ⟨done, at_⟩, by have := at_.1; omega⟩)
    (lt_of_le_of_lt (Nat.sub_le _ _) enough)
  refine ⟨t.1, by rw [ended]; rfl, ?_⟩
  have past : ¬t.2.addr < addr + len := by simpa using down
  rw [BitVec.lt_def] at past
  obtain ⟨_, _, index⟩ := at_
  rwa [show len.toNat = t.2.data_idx by omega]

theorem Written.page {s : Access × Cursor} (done : Written data strb start old s.2.data_idx s.1)
    (at_ : At start end_ s.2) (up : s.2.addr < end_) (below : end_.toNat ≤ 2 ^ 64 - 4096) :
    Written data strb start old (writePage data strb end_ s).2.data_idx
        (writePage data strb end_ s).1 ∧
      At start end_ (writePage data strb end_ s).2 ∧
      s.2.addr.toNat < (writePage data strb end_ s).2.addr.toNat := by
  obtain ⟨_, places, next, progress⟩ := at_.page up below
  refine ⟨?_, next, progress⟩
  have bytes := loop_invariant (n := steps s.2.addr _)
    (s := (⟨s.1.mem.allocate (s.2.addr >>> ADDR_SHIFT), s.1.inside⟩, false))
    (fun k (t : Access × Bool) => Written data strb start old (s.2.data_idx + k) t.1)
    (done.allocate (s.2.addr >>> ADDR_SHIFT)) fun k small t so_far => by
      have here := so_far.succ (places k small).1
      rwa [(places k small).2] at here
  exact bytes.touch _ _

variable (addr len data strb old) in
/-- **`write` below the last page ends, and has written its bytes.** -/
theorem write_bytes (plain : old.mem.mappings = [])
    (below : addr.toNat + len.toNat ≤ 2 ^ 64 - 4096) {fuel : Nat} (enough : 2 ^ 64 < fuel) :
    ∃ t, write addr len data strb fuel old = some t ∧
      Written data strb addr old len.toNat t :=
  pages_end (writePage data strb (addr + len)) (Written data strb addr old) (Written.zero plain)
    (fun _ done at_ up below => done.page at_ up below) below enough

/-- **`write` into the last page does not end**, unless it ends where the page does. -/
theorem write_diverges (fuel : Nat) (up : addr < addr + len)
    (last : 2 ^ 64 - 4096 < (addr + len).toNat) :
    write addr len data strb fuel old = none := by
  rw [write, whileLoop_diverges (fun s : Access × Cursor => s.2.addr < addr + len)]
  · rfl
  · exact up
  · intro s kept
    simpa using kept
  · intro s t kept step
    cases step
    change nextPage s.2.addr < addr + len
    rw [BitVec.lt_def] at kept ⊢
    by_cases below : s.2.addr.toNat < 2 ^ 64 - 4096
    · rw [toNat_nextPage s.2.addr below]
      omega
    · rw [nextPage_last (by omega)]
      exact lt_of_le_of_lt (Nat.zero_le _) last

/-- `write` of nothing, or up to the top of the address space. -/
theorem write_nothing (fuel : Nat) (down : ¬addr < addr + len) :
    write addr len data strb (fuel + 1) old = some old := by
  rw [write, whileLoop_stop (by simpa using down)]
  rfl

theorem write_mono {fuel fuel' : Nat} {t : Access} (le : fuel ≤ fuel')
    (ended : write addr len data strb fuel old = some t) :
    write addr len data strb fuel' old = some t := by
  rw [write] at ended ⊢
  obtain ⟨s, done, rfl⟩ := Option.map_eq_some_iff.mp ended
  rw [whileLoop_mono le done]
  rfl

end Writing

/-! ## Reading -/

section Reading

variable {mem : GlobalMemory} {start end_ addr len : BitVec 64} {old : Reading}

/-- `d` bytes from `start` on have been read. -/
structure Read (mem : GlobalMemory) (start : BitVec 64) (old : Reading) (d : Nat) (new : Reading) :
    Prop where
  size : new.data.size = old.data.size
  byte : ∀ k, new.data.byte k =
    if k < d then mem.byte (start + BitVec.ofNat 64 k) else old.data.byte k
  inside : new.inside = true ↔ old.inside = true ∧ ∀ k < d, k < old.data.size

theorem Read.zero : Read mem start old 0 old := ⟨rfl, by simp, by simp⟩

theorem Read.succ {d : Nat} {s : Reading} (done : Read mem start old d s) :
    Read mem start old (d + 1) (mem.readByte ((start + BitVec.ofNat 64 d) >>> ADDR_SHIFT)
      (start + BitVec.ofNat 64 d) d s) where
  size := done.size
  byte k := by
    change Function.update s.data.byte d (mem.byte (start + BitVec.ofNat 64 d)) k = _
    rcases eq_or_ne k d with rfl | other
    · simp
    · rw [Function.update_of_ne other, done.byte]
      congr 1
      exact propext (by omega)
  inside := by
    have small : (start + BitVec.ofNat 64 d).toNat % SIZE_OF_PAGE < SIZE_OF_PAGE :=
      Nat.mod_lt _ (by decide)
    simp only [readByte, Bool.and_eq_true, decide_eq_true_eq, done.inside, done.size, small,
      and_true, and_assoc, Nat.forall_lt_succ_right]

theorem Read.page {s : Reading × Cursor} (done : Read mem start old s.2.data_idx s.1)
    (at_ : At start end_ s.2) (up : s.2.addr < end_) (below : end_.toNat ≤ 2 ^ 64 - 4096) :
    Read mem start old (mem.readPage end_ s).2.data_idx (mem.readPage end_ s).1 ∧
      At start end_ (mem.readPage end_ s).2 ∧
      s.2.addr.toNat < (mem.readPage end_ s).2.addr.toNat := by
  obtain ⟨_, places, next, progress⟩ := at_.page up below
  refine ⟨?_, next, progress⟩
  refine loop_invariant (n := steps s.2.addr _) (s := s.1)
    (fun k t => Read mem start old (s.2.data_idx + k) t) done fun k small t so_far => ?_
  have place : s.2.addr + BitVec.ofNat 64 k = start + BitVec.ofNat 64 (s.2.data_idx + k) := by
    apply BitVec.eq_of_toNat_eq
    have here := (places k small).1
    rw [here, toNat_offset start _ (by omega)]
  have here := so_far.succ
  rwa [← place, (places k small).2] at here

variable (mem addr len old) in
/-- **`read` below the last page ends, and has read its bytes.** -/
theorem read_bytes (below : addr.toNat + len.toNat ≤ 2 ^ 64 - 4096) {fuel : Nat}
    (enough : 2 ^ 64 < fuel) :
    ∃ t, mem.read addr len fuel old = some t ∧ Read mem addr old len.toNat t :=
  pages_end (mem.readPage (addr + len)) (Read mem addr old) Read.zero
    (fun _ done at_ up below => done.page at_ up below) below enough

theorem read_nothing (fuel : Nat) (down : ¬addr < addr + len) :
    mem.read addr len (fuel + 1) old = some old := by
  rw [read, whileLoop_stop (by simpa using down)]
  rfl

end Reading

end GlobalMemory

end SnitchCluster.Testbench
