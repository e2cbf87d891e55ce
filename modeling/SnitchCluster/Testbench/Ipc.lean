/-
# Testbench.Ipc -- memory access over the simulation's pipes

A `Write` message carries bytes into the memory of the testbench and a `Read` message carries them
back, in blocks of the handler's buffer.  What was written comes back, and nothing else changes, up
to the size of the strobe array, which has one entry for eight bytes but is indexed by bytes; and
below the last page, into which a page loop does not end (`write_read_exact_iff`).
-/
import SnitchCluster.Testbench.GlobalMemory

namespace SnitchCluster.Testbench

open Theory GlobalMemory

/-! ## The code -/

def IPC_BUF_SIZE : Nat := 4096

def IPC_BUF_SIZE_STRB : Nat := IPC_BUF_SIZE / 8 + 1

/-- `std::fill_n(buf_strb, IPC_BUF_SIZE_STRB, 0xFF)`. -/
def buf_strb : Buffer := ⟨IPC_BUF_SIZE_STRB, fun _ => 0xFF⟩

inductive ipc_opcode_e
  | Read
  | Write
  deriving DecidableEq

structure ipc_op_t where
  opcode : ipc_opcode_e
  addr : BitVec 64
  len : BitVec 64

/-- The handler: the memory, its buffer, the data that are still to come from `tx` and that went to
`rx`, and whether all indices so far were inside their arrays. -/
structure IpcIface where
  mem : GlobalMemory
  buf_data : Nat → Byte
  tx : List Byte
  rx : List Byte
  inside : Bool

namespace IpcIface

/-- `fread(buf_data, len, 1, tx)`. -/
def fread (len : BitVec 64) (s : IpcIface) : IpcIface :=
  { s with
    buf_data := fun k => if k < len.toNat then s.tx.getD k (s.buf_data k) else s.buf_data k
    tx := s.tx.drop len.toNat
    inside := s.inside && len.toNat ≤ IPC_BUF_SIZE }

/-- `fwrite(buf_data, len, 1, rx)`. -/
def fwrite (len : BitVec 64) (s : IpcIface) : IpcIface :=
  { s with
    rx := s.rx ++ (List.range len.toNat).map s.buf_data
    inside := s.inside && len.toNat ≤ IPC_BUF_SIZE }

/-- `sim::MEM.read(addr, len, buf_data)`. -/
def memRead (addr len : BitVec 64) (fuel : Nat) (s : IpcIface) : Option IpcIface :=
  (s.mem.read addr len fuel ⟨⟨IPC_BUF_SIZE, s.buf_data⟩, true⟩).map fun t =>
    { s with buf_data := t.data.byte, inside := s.inside && t.inside }

/-- `sim::MEM.write(addr, len, buf_data, buf_strb)`. -/
def memWrite (addr len : BitVec 64) (fuel : Nat) (s : IpcIface) : Option IpcIface :=
  (write addr len ⟨IPC_BUF_SIZE, s.buf_data⟩ (some buf_strb) fuel ⟨s.mem, true⟩).map fun t =>
    { s with mem := t.mem, inside := s.inside && t.inside }

def readBlock (fuel : Nat) (addr len : BitVec 64) (s : IpcIface) : Option IpcIface :=
  (s.memRead addr len fuel).map (fwrite len)

def writeBlock (fuel : Nat) (addr len : BitVec 64) (s : IpcIface) : Option IpcIface :=
  (s.fread len).memWrite addr len fuel

/-- The block loop of a message: `op.addr`, `op.len` and the counter `i`. -/
structure Blocks where
  ipc : IpcIface
  addr : BitVec 64
  len : BitVec 64
  i : BitVec 64

/-- An iteration of `for (uint64_t i = op.len; i > IPC_BUF_SIZE; i -= IPC_BUF_SIZE)`. -/
def fullBlock (block : BitVec 64 → BitVec 64 → IpcIface → Option IpcIface) (b : Blocks) :
    Option Blocks :=
  let size := BitVec.ofNat 64 IPC_BUF_SIZE
  (block b.addr size b.ipc).map fun t => ⟨t, b.addr + size, b.len - size, b.i - size⟩

/-- Full blocks until one full block or less is left. -/
def blocks (block : BitVec 64 → BitVec 64 → IpcIface → Option IpcIface) (fuel : Nat)
    (op : ipc_op_t) (s : IpcIface) : Option IpcIface :=
  (whileLoop (fun b : Blocks => b.i > BitVec.ofNat 64 IPC_BUF_SIZE) (fullBlock block) fuel
    ⟨s, op.addr, op.len, op.len⟩).bind fun b => block b.addr b.len b.ipc

def handle (fuel : Nat) (s : IpcIface) (op : ipc_op_t) : Option IpcIface :=
  match op.opcode with
  | .Read => blocks (readBlock fuel) fuel op s
  | .Write => blocks (writeBlock fuel) fuel op s

def ipc_thread_handle (fuel : Nat) (ops : List ipc_op_t) (s : IpcIface) : Option IpcIface :=
  ops.foldlM (handle fuel) s

end IpcIface

open IpcIface

/-! ## Blocks -/

section Blocks

variable {block : BitVec 64 → BitVec 64 → IpcIface → Option IpcIface} {op : ipc_op_t}
  {s t : IpcIface} {fuel : Nat}

theorem IPC_BUF_SIZE_toNat : (BitVec.ofNat 64 IPC_BUF_SIZE).toNat = 4096 := rfl

/-- A message that fits in one block. -/
theorem blocks_one (short : op.len.toNat ≤ 4096) :
    blocks block (fuel + 1) op s = block op.addr op.len s := by
  have stop : ¬op.len > BitVec.ofNat 64 IPC_BUF_SIZE := by
    rw [gt_iff_lt, BitVec.lt_def, IPC_BUF_SIZE_toNat]
    omega
  rw [blocks, whileLoop_stop (by simpa using stop), Option.bind_some]

/-- **No block was outside, if the message was not**: its first block and what was before it. -/
theorem blocks_first
    (falls : ∀ addr len s t, block addr len s = some t → t.inside = true → s.inside = true)
    (ended : blocks block fuel op s = some t) (inside : t.inside = true) :
    ∃ first, block op.addr
        (if 4096 < op.len.toNat then BitVec.ofNat 64 IPC_BUF_SIZE else op.len) s = some first ∧
      first.inside = true := by
  split
  · next long =>
      cases fuel with
      | zero => cases ended
      | succ fuel =>
        have up : op.len > BitVec.ofNat 64 IPC_BUF_SIZE := by
          rwa [gt_iff_lt, BitVec.lt_def, IPC_BUF_SIZE_toNat]
        rw [blocks, whileLoop, if_pos (by simpa using up), fullBlock] at ended
        obtain ⟨b, rest, last⟩ := Option.bind_eq_some_iff.mp ended
        obtain ⟨b₁, step, rest⟩ := Option.bind_eq_some_iff.mp rest
        obtain ⟨first, whole, rfl⟩ := Option.map_eq_some_iff.mp step
        refine ⟨first, whole, ?_⟩
        refine (whileLoop_invariant (fun b : Blocks => b.ipc.inside = true → first.inside = true)
          id ?_ rest).1 (falls _ _ _ _ last inside)
        intro b b' so_far _ step kept
        obtain ⟨next, whole, rfl⟩ := Option.map_eq_some_iff.mp step
        exact so_far (falls _ _ _ _ whole kept)
  · next short =>
      cases fuel with
      | zero => cases ended
      | succ fuel =>
        rw [blocks_one (by omega)] at ended
        exact ⟨t, ended, inside⟩

theorem readBlock_falls (addr len : BitVec 64) (s t : IpcIface)
    (ended : readBlock fuel addr len s = some t) (inside : t.inside = true) : s.inside = true := by
  obtain ⟨_, read, rfl⟩ := Option.map_eq_some_iff.mp ended
  obtain ⟨_, _, rfl⟩ := Option.map_eq_some_iff.mp read
  simp only [fwrite, Bool.and_eq_true] at inside
  exact inside.1.1

theorem writeBlock_falls (addr len : BitVec 64) (s t : IpcIface)
    (ended : writeBlock fuel addr len s = some t) (inside : t.inside = true) : s.inside = true := by
  obtain ⟨_, _, rfl⟩ := Option.map_eq_some_iff.mp ended
  simp only [fread, Bool.and_eq_true] at inside
  exact inside.1.1

end Blocks

/-! ## One block -/

section OneBlock

variable {addr len : BitVec 64} {fuel : Nat} {s t : IpcIface}

theorem strobed_iff (k : Nat) : strobed (some buf_strb) k = true ↔ k < 513 := by
  simp [strobed, buf_strb, IPC_BUF_SIZE_STRB, IPC_BUF_SIZE]

theorem covered_iff (data : Nat → Byte) (k : Nat) :
    covered ⟨IPC_BUF_SIZE, data⟩ (some buf_strb) k = true ↔ k < 513 := by
  have clear := strobed_iff k
  simp only [covered, Bool.and_eq_true, Bool.or_eq_true, Bool.not_eq_true', Option.elim_some,
    decide_eq_true_eq, ← Bool.not_eq_true, clear]
  simp [buf_strb, IPC_BUF_SIZE_STRB, IPC_BUF_SIZE]
  omega

/-- **A block that is too long for the strobe array, or ends inside the last page, fails.** -/
theorem writeBlock_fails (plain : s.mem.mappings = []) (some_bytes : len.toNat ≠ 0)
    (space : addr.toNat + len.toNat < 2 ^ 64)
    (bad : 513 < len.toNat ∨ 2 ^ 64 - 4096 < addr.toNat + len.toNat)
    (ended : writeBlock fuel addr len s = some t) : t.inside = false := by
  obtain ⟨access, wrote, rfl⟩ := Option.map_eq_some_iff.mp ended
  have end_eq : (addr + len).toNat = addr.toNat + len.toNat := by
    rw [BitVec.toNat_add, Nat.mod_eq_of_lt space]
  by_cases below : addr.toNat + len.toNat ≤ 2 ^ 64 - 4096
  · obtain ⟨access', wrote', done⟩ := write_bytes
      ⟨IPC_BUF_SIZE, (s.fread len).buf_data⟩ (some buf_strb) addr len ⟨s.mem, true⟩ plain below
      (show 2 ^ 64 < fuel + 2 ^ 64 + 1 by omega)
    cases (write_mono (by omega) wrote).symm.trans wrote'
    cases inside : access.inside with
    | false => simp
    | true =>
      have entry := (done.inside.mp inside).2 513 (by omega)
      rw [covered_iff] at entry
      omega
  · have up : addr < addr + len := by
      rw [BitVec.lt_def]
      omega
    rw [write_diverges fuel up (by omega)] at wrote
    cases wrote

end OneBlock

/-! ## A message there and back -/

section Messages

variable {addr len : BitVec 64} {fuel : Nat} {s t : IpcIface}

/-- `Write` and then `Read` of the same range, for every memory and every bytes: both end, the bytes
come back, no index was outside, and no other byte has changed.  Nothing adds a mapping. -/
def Exact (addr len : BitVec 64) : Prop :=
  ∀ (mem : GlobalMemory) (buf_data : Nat → Byte) (bytes : List Byte),
    mem.mappings = [] → bytes.length = len.toNat →
      ∃ fuel t, ipc_thread_handle fuel [⟨.Write, addr, len⟩, ⟨.Read, addr, len⟩]
          ⟨mem, buf_data, bytes, [], true⟩ = some t ∧
        t.rx = bytes ∧ t.inside = true ∧
          ∀ i : BitVec 64, ¬(addr.toNat ≤ i.toNat ∧ i.toNat < addr.toNat + len.toNat) →
            t.mem.byte i = mem.byte i

theorem one_block_each {u : IpcIface} (short : len.toNat ≤ 4096)
    (wrote : writeBlock (fuel + 1) addr len s = some t)
    (read : readBlock (fuel + 1) addr len t = some u) :
    ipc_thread_handle (fuel + 1) [⟨.Write, addr, len⟩, ⟨.Read, addr, len⟩] s = some u := by
  have first : handle (fuel + 1) s ⟨.Write, addr, len⟩ = some t := (blocks_one short).trans wrote
  have second : handle (fuel + 1) t ⟨.Read, addr, len⟩ = some u := (blocks_one short).trans read
  simp [ipc_thread_handle, first, second]

theorem map_range_eq {bytes : List Byte} {byte : Nat → Byte} (length : bytes.length = len.toNat)
    (same : ∀ k < len.toNat, byte k = bytes.getD k 0) :
    (List.range len.toNat).map byte = bytes := by
  apply List.ext_getElem
  · simp [length]
  · intro k _ inside
    simp [same k (length ▸ inside), inside]

theorem getD_default {bytes : List Byte} {k : Nat} {b : Byte} (inside : k < bytes.length) :
    bytes.getD k b = bytes.getD k 0 := by
  simp [inside]

/-- What `write` does not touch: the bytes come back from the buffer they came in. -/
theorem exact_nothing (short : len.toNat ≤ 4096) (down : ¬addr < addr + len) : Exact addr len := by
  intro mem buf_data bytes _ length
  have wrote (s : IpcIface) :
      s.memWrite addr len 1 = some { s with inside := s.inside && true } := by
    rw [memWrite, write_nothing 0 down]
    rfl
  have read (s : IpcIface) : s.memRead addr len 1 = some { s with inside := s.inside && true } := by
    rw [memRead, read_nothing 0 down]
    rfl
  refine ⟨1, _, one_block_each short (wrote _) (congrArg (Option.map _) (read _)), ?_, ?_,
    fun _ _ => ?_⟩
  · refine map_range_eq length fun k inside => ?_
    simp only [fread, if_pos inside, getD_default (length ▸ inside)]
  · simp [fwrite, fread, IPC_BUF_SIZE, short]
  · rfl

/-- What the strobe array covers, below the last page. -/
theorem exact_short (short : len.toNat ≤ 513)
    (below : addr.toNat + len.toNat ≤ 2 ^ 64 - 4096) : Exact addr len := by
  intro mem buf_data bytes plain length
  obtain ⟨access, wrote, written⟩ := write_bytes
    ⟨IPC_BUF_SIZE, (fread len ⟨mem, buf_data, bytes, [], true⟩).buf_data⟩ (some buf_strb) addr len
    ⟨mem, true⟩ plain below (Nat.lt_succ_self _)
  obtain ⟨reading, read, back⟩ := read_bytes access.mem addr len
    ⟨⟨IPC_BUF_SIZE, (fread len ⟨mem, buf_data, bytes, [], true⟩).buf_data⟩, true⟩ below
    (Nat.lt_succ_self _)
  refine ⟨2 ^ 64 + 1, _, one_block_each (by omega) (congrArg (Option.map _) wrote)
    (congrArg (Option.map _) (congrArg (Option.map _) read)), ?_, ?_, fun i other => ?_⟩
  · refine map_range_eq length fun k inside => ?_
    have place := toNat_offset addr k (by omega)
    have offset : (addr + BitVec.ofNat 64 k).toNat - addr.toNat = k := by omega
    have set : strobed (some buf_strb) k = true := (strobed_iff k).mpr (by omega)
    simp only [back.byte, if_pos inside, written.byte, offset]
    rw [if_pos ⟨by omega, by omega, set⟩]
    simp only [fread, if_pos inside, getD_default (length ▸ inside)]
  · have wrote_inside : access.inside = true :=
      written.inside.mpr ⟨rfl, fun k inside => (covered_iff _ k).mpr (by omega)⟩
    have read_inside : reading.inside = true :=
      back.inside.mpr ⟨rfl, fun k inside => by simp only [IPC_BUF_SIZE]; omega⟩
    have fits : len.toNat ≤ IPC_BUF_SIZE := by simp only [IPC_BUF_SIZE]; omega
    simp [fwrite, fread, fits, wrote_inside, read_inside]
  · change access.mem.byte i = mem.byte i
    rw [written.byte, if_neg fun both => other ⟨both.1, both.2.1⟩]

/-- A message whose first block fails. -/
theorem not_exact (space : addr.toNat + len.toNat ≤ 2 ^ 64)
    (bad : 4096 < len.toNat ∨ len.toNat ≠ 0 ∧ addr.toNat + len.toNat < 2 ^ 64 ∧
      (513 < len.toNat ∨ 2 ^ 64 - 4096 < addr.toNat + len.toNat)) : ¬Exact addr len := by
  intro exact_
  obtain ⟨fuel, t, ended, _, inside, _⟩ := exact_ ⟨fun _ => none, ∅, [], fun _ => 0⟩ (fun _ => 0)
    (List.replicate len.toNat 0) rfl List.length_replicate
  rw [ipc_thread_handle, List.foldlM_cons] at ended
  obtain ⟨s, wrote, ended⟩ := Option.bind_eq_some_iff.mp ended
  rw [List.foldlM_cons] at ended
  obtain ⟨u, read, ended⟩ := Option.bind_eq_some_iff.mp ended
  cases ended
  obtain ⟨first, read, kept⟩ := blocks_first readBlock_falls read inside
  obtain ⟨first, wrote, kept⟩ := blocks_first writeBlock_falls wrote
    (readBlock_falls _ _ _ _ read kept)
  dsimp only at wrote
  have fails : first.inside = false := by
    split at wrote
    · have block := IPC_BUF_SIZE_toNat
      exact writeBlock_fails rfl (by omega) (by omega) (.inl (by omega)) wrote
    · exact writeBlock_fails rfl (by omega) (by omega) (by omega) wrote
  rw [fails] at kept
  cases kept

/-- **Access over the pipes is exact** for a range of at most 513 bytes below the last page, and for
a range of at most one block that is not touched: an empty one, or one up to the top of the address
space, whose bytes come back from the buffer. -/
theorem write_read_exact_iff (addr len : BitVec 64) (space : addr.toNat + len.toNat ≤ 2 ^ 64) :
    Exact addr len ↔
      len = 0 ∨ len.toNat ≤ 513 ∧ addr.toNat + len.toNat ≤ 2 ^ 64 - 4096 ∨
        len.toNat ≤ 4096 ∧ addr.toNat + len.toNat = 2 ^ 64 := by
  constructor
  · intro exact_
    by_contra bad
    refine not_exact space ?_ exact_
    have some_bytes : len.toNat ≠ 0 := fun none => bad (.inl (BitVec.eq_of_toNat_eq none))
    omega
  · rintro (rfl | ⟨short, below⟩ | ⟨short, top⟩)
    · exact exact_nothing (by decide) (by simp)
    · exact exact_short short below
    · refine exact_nothing short ?_
      have wraps : addr + len = 0 := by
        apply BitVec.eq_of_toNat_eq
        rw [BitVec.toNat_add, top]
        rfl
      simp [wraps]

theorem write_read_exact_word :
    Exact 0x80000000#64 8#64 ↔
      (8#64 : BitVec 64) = 0 ∨ (8#64).toNat ≤ 513 ∧ (0x80000000#64).toNat + (8#64).toNat ≤
        2 ^ 64 - 4096 ∨ (8#64).toNat ≤ 4096 ∧ (0x80000000#64).toNat + (8#64).toNat = 2 ^ 64 :=
  write_read_exact_iff 0x80000000#64 8#64 (by decide)

/-- The strobe of byte 513 is read past the end of its array. -/
theorem byte_513_lost : ¬Exact 0x80000000#64 514#64 :=
  not_exact (by decide) (.inr ⟨by decide, by decide, .inl (by decide)⟩)

end Messages

end SnitchCluster.Testbench
