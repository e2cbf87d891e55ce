/-
# Runtime.Alloc -- two generations of allocators over the same memories

The first generation has one allocator for a cluster's L1 and one for L3; single cores
take blocks from them, and nothing checks the bounds.  In the second every core has
allocators of its own: the cores make the same calls and so compute the same addresses,
and a block that ends past the allocator's end raises an exception.  Both generations
start at the same addresses.

The cores of a cluster run one sequence of collective calls, each at its own pace,
while single cores call the first generation.  `Admits` are the calls after which the
blocks are still where they should be: one generation in each memory, no size, product
or alignment that wraps around 32 bits, and a first-generation block inside the memory.
-/
import Mathlib.Tactic.Ring
import SnitchCluster.Runtime.MemoryMap
import SnitchCluster.Theory.Interleaving

namespace SnitchCluster.Runtime.Alloc

open MemoryMap Theory

/-! ## The functions -/

/-- `snrt_l1_alloc` and `snrt_l3_alloc`, on their allocators. -/
def snrtAlloc (size : BitVec 32) (alloc : Allocator) : BitVec 32 × Allocator :=
  let size := snrtAlignUp size minChunkSize 0
  (alloc.next.setWidth 32, { alloc with next := alloc.next + size.setWidth 64 })

/-- The allocator with its next address aligned. -/
def alignNext (alignment : BitVec 32) (alloc : Allocator) : Allocator :=
  { alloc with next := (snrtAlignUp (alloc.next.setWidth 32) alignment 0).setWidth 64 }

/-- The allocator past a block of `size` bytes. -/
def addNext (size : BitVec 32) (alloc : Allocator) : Allocator :=
  { alloc with next := alloc.next + size.setWidth 64 }

/-- `none` is the `ecall` of `snrt_l1_alloc_check_bounds`. -/
def snrtL1AllocClusterLocal (size alignment : BitVec 32) (alloc : Allocator) :
    Option (BitVec 32 × Allocator) :=
  let alloc := alignNext alignment alloc
  let retval := alloc.next.setWidth 32
  let alloc := addNext size alloc
  if alloc.next > alloc.end_ then none else some (retval, alloc)

def snrtL1AllocComputeCoreLocal (size alignment coreIdx computeCoreNum : BitVec 32)
    (alloc : Allocator) : Option (BitVec 32 × Allocator) :=
  let alloc := alignNext alignment alloc
  let retval := alloc.next.setWidth 32 + size * coreIdx
  let alloc := addNext (size * computeCoreNum) alloc
  if alloc.next > alloc.end_ then none else some (retval, alloc)

/-- `none` is the `ecall` of `snrt_l3_alloc_check_bounds`. -/
def snrtL3AllocV2 (size alignment : BitVec 32) (alloc : Allocator) :
    Option (BitVec 32 × Allocator) :=
  let alloc := alignNext alignment alloc
  let retval := alloc.next.setWidth 32
  let alloc := addNext size alloc
  if alloc.next ≥ alloc.end_ then none else some (retval, alloc)

/-- `snrt_compute_core_local_ptr`, on the core of an index. -/
def snrtComputeCoreLocalPtr (clusterCoreIdx ptr coreIdx size : BitVec 32) : BitVec 32 :=
  ptr + (coreIdx - clusterCoreIdx) * size

/-- A cluster, and the bounds of L3. -/
structure System extends Config where
  cluster : Nat
  edram : BitVec 32
  l3EndAddr : BitVec 64
  harts : cluster * clusterCoreNum.toNat + clusterCoreNum.toNat ≤ 2 ^ 32
  l3End_le : l3EndAddr.toNat ≤ 2 ^ 32

namespace System

variable (sys : System)

abbrev Core : Type := Fin sys.clusterCoreNum.toNat

def mhartid (i : sys.Core) : BitVec 32 := sys.hart sys.cluster i

def snrtClusterCoreIdx (i : sys.Core) : BitVec 32 :=
  sys.snrtGlobalCoreIdx (sys.mhartid i) % sys.clusterCoreNum

/-- One core of a cluster is its DM core. -/
def snrtClusterComputeCoreNum : BitVec 32 := sys.clusterCoreNum - 1

/-- The L1 allocator that `snrt_alloc_init` leaves. -/
def l1AllocInit : Allocator :=
  let l1StartAddr := sys.tcdmMem (sys.snrtClusterIdx (sys.hart sys.cluster 0))
  let base := snrtAlignUp l1StartAddr minChunkSize 0
  { base := base.setWidth 64, end_ := (l1StartAddr + sys.tcdmSize).setWidth 64,
    next := base.setWidth 64 }

/-- Its L3 allocator. -/
def l3AllocInit : Allocator :=
  let base := snrtAlignUp sys.edram minChunkSize 0
  { base := base.setWidth 64, end_ := base.setWidth 64, next := base.setWidth 64 }

def snrtL3Init : Allocator :=
  let base := snrtAlignUp sys.edram minChunkSize 0
  { base := base.setWidth 64, end_ := sys.l3EndAddr, next := base.setWidth 64 }

end System

/-! ## The cores of a cluster -/

inductive Kind
  | clusterLocal
  | computeCoreLocal
  | l3
  deriving DecidableEq, Repr

/-- A call of the second generation. -/
structure Request where
  kind : Kind
  size : BitVec 32
  alignment : BitVec 32
  positive : 0 < alignment.toNat

/-- The allocators of a core. -/
structure Allocators where
  l1 : Allocator
  l3 : Allocator
  deriving DecidableEq, Repr

/-- The call on core `i`. -/
def Request.perform (sys : System) (r : Request) (i : sys.Core) (a : Allocators) :
    Option (BitVec 32 × Allocators) :=
  match r.kind with
  | .clusterLocal =>
    (snrtL1AllocClusterLocal r.size r.alignment a.l1).map fun (ptr, l1) => (ptr, { a with l1 })
  | .computeCoreLocal =>
    (snrtL1AllocComputeCoreLocal r.size r.alignment (sys.snrtClusterCoreIdx i)
      sys.snrtClusterComputeCoreNum a.l1).map fun (ptr, l1) => (ptr, { a with l1 })
  | .l3 => (snrtL3AllocV2 r.size r.alignment a.l3).map fun (ptr, l3) => (ptr, { a with l3 })

inductive Memory
  | l1
  | l3
  deriving DecidableEq, Repr

def Kind.memory : Kind → Memory
  | .clusterLocal | .computeCoreLocal => .l1
  | .l3 => .l3

/-- What a block was allocated for: a core by its own, all cores in their call of a
number, or one of them in such a call. -/
inductive Source
  | single (index : Nat)
  | shared (call : Nat)
  | own (call core : Nat)
  deriving DecidableEq, Repr

def Source.isSingle : Source → Bool
  | .single _ => true
  | .shared _ | .own _ _ => false

/-- A block that was returned, with what was asked for and the bounds of the allocator. -/
structure Block where
  memory : Memory
  source : Source
  addr : BitVec 32
  size : BitVec 32
  alignment : BitVec 32
  base : BitVec 64
  end_ : BitVec 64
  deriving DecidableEq, Repr

/-- The addresses of a block. -/
def Block.bytes (b : Block) : Set Nat := Set.Ico b.addr.toNat (b.addr.toNat + b.size.toNat)

def Allocators.at (a : Allocators) : Memory → Allocator
  | .l1 => a.l1
  | .l3 => a.l3

/-- The block core `i` gets from call `k`.  Where the block is one for each compute core,
what the DM core gets is undefined. -/
def Request.block (sys : System) (r : Request) (k : Nat) (i : sys.Core) (ptr : BitVec 32)
    (a : Allocators) : Option Block :=
  let block (source : Source) : Block :=
    { memory := r.kind.memory, source, addr := ptr, size := r.size, alignment := r.alignment,
      base := (a.at r.kind.memory).base, end_ := (a.at r.kind.memory).end_ }
  match r.kind with
  | .clusterLocal | .l3 => some (block (.shared k))
  | .computeCoreLocal =>
    if sys.snrtClusterCoreIdx i < sys.snrtClusterComputeCoreNum then some (block (.own k i))
    else none

/-- A core: its allocators and the number of its calls. -/
structure Core where
  allocs : Allocators
  done : Nat

structure State (sys : System) where
  cores : sys.Core → Core
  l1 : Allocator
  l3 : Allocator
  blocks : List Block

inductive Label (sys : System)
  | collective (i : sys.Core)
  | l1Alloc (size : BitVec 32)
  | l3Alloc (size : BitVec 32)

section Step

variable (sys : System) (program : List Request)

/-- A call of one core. -/
def step (label : Label sys) (s : State sys) : Option (State sys) :=
  match label with
  | .collective i =>
    let core := s.cores i
    match program[core.done]? with
    | none => none
    | some r =>
      match r.perform sys i core.allocs with
      | none => none
      | some (ptr, allocs) => some { s with
          cores := Function.update s.cores i { allocs, done := core.done + 1 }
          blocks := (r.block sys core.done i ptr allocs).toList ++ s.blocks }
  | .l1Alloc size =>
    let (addr, l1) := snrtAlloc size s.l1
    let block : Block := { memory := .l1, source := .single s.blocks.length, addr, size,
                           alignment := minChunkSize, base := l1.base, end_ := l1.end_ }
    some { s with l1, blocks := block :: s.blocks }
  | .l3Alloc size =>
    let (addr, l3) := snrtAlloc size s.l3
    let block : Block := { memory := .l3, source := .single s.blocks.length, addr, size,
                           alignment := minChunkSize, base := l3.base, end_ := l3.end_ }
    some { s with l3, blocks := block :: s.blocks }

def cores : Interleaving (State sys) (Label sys) where
  step := step sys program

/-- `snrt_init_libs`, on all cores. -/
def start : State sys where
  cores i := { allocs := ⟨sys.snrtL1Init (sys.mhartid i), sys.snrtL3Init⟩, done := 0 }
  l1 := sys.l1AllocInit
  l3 := sys.l3AllocInit
  blocks := []

/-- No sum or product of the call wraps around. -/
def Request.Fits (r : Request) (a : Allocators) : Prop :=
  (a.at r.kind.memory).next.toNat + r.alignment.toNat ≤ 2 ^ 32 ∧
    (r.kind = .computeCoreLocal → r.size.toNat * sys.snrtClusterComputeCoreNum.toNat < 2 ^ 32)

/-- The calls that keep the blocks apart. -/
def Admits (s : State sys) : Label sys → Prop
  | .collective i => ∀ r ∈ program[(s.cores i).done]?, r.Fits sys (s.cores i).allocs ∧
      (r.kind.memory = .l1 → r.size ≠ 0 → ∀ b ∈ s.blocks, b.memory = .l1 → b.size ≠ 0 →
        b.source.isSingle = false)
  | .l1Alloc size =>
    (size ≠ 0 → ∀ b ∈ s.blocks, b.memory = .l1 → b.size ≠ 0 → b.source.isSingle = true) ∧
    size.toNat + 8 ≤ 2 ^ 32 ∧ s.l1.next.toNat + size.toNat ≤ s.l1.end_.toNat
  | .l3Alloc size => size = 0

instance (r : Request) (a : Allocators) : Decidable (r.Fits sys a) := instDecidableAnd

instance (s : State sys) (label : Label sys) : Decidable (Admits sys program s label) :=
  match label with
  | .collective i => inferInstanceAs (Decidable (∀ r ∈ program[(s.cores i).done]?, _ ∧ _))
  | .l1Alloc size => inferInstanceAs (Decidable ((size ≠ 0 → ∀ b ∈ s.blocks, _) ∧ _))
  | .l3Alloc size => inferInstanceAs (Decidable (size = 0))

end Step

/-! ## One call -/

theorem toNat_alignUp (addr size : BitVec 32) : (snrtAlignUp addr size 0).toNat =
    (addr + size - 1).toNat / size.toNat * size.toNat := by
  have below := Nat.div_mul_le_self (addr + size - 1).toNat size.toNat
  have width := (addr + size - 1).isLt
  calc
    (snrtAlignUp addr size 0).toNat = ((addr - 0 + size - 1) / size * size).toNat :=
      congrArg BitVec.toNat (BitVec.add_zero _)
    _ = ((addr + size - 1) / size * size).toNat := by
      rw [show addr - 0 = addr from BitVec.sub_zero addr]
    _ = (addr + size - 1).toNat / size.toNat * size.toNat := by
      rw [BitVec.toNat_mul, BitVec.toNat_udiv, Nat.mod_eq_of_lt (by omega)]

/-- Even where the sum wraps, the result is a multiple. -/
theorem dvd_alignUp (addr size : BitVec 32) : size.toNat ∣ (snrtAlignUp addr size 0).toNat :=
  toNat_alignUp addr size ▸ Nat.dvd_mul_left _ _

theorem alignUp_bounds {addr size : BitVec 32} (positive : 0 < size.toNat)
    (fits : addr.toNat + size.toNat ≤ 2 ^ 32) : addr.toNat ≤ (snrtAlignUp addr size 0).toNat ∧
      (snrtAlignUp addr size 0).toNat < addr.toNat + size.toNat := by
  have one : (1 : BitVec 32).toNat = 1 := rfl
  have sum : (addr + size - 1).toNat = addr.toNat + size.toNat - 1 := by
    rw [BitVec.toNat_sub, BitVec.toNat_add, one]
    omega
  have below := Nat.div_mul_le_self (addr.toNat + size.toNat - 1) size.toNat
  have above := Nat.lt_div_mul_add (a := addr.toNat + size.toNat - 1) positive
  rw [toNat_alignUp, sum]
  omega

/-- The memory of an allocator aside, an allocation does not change it. -/
def Allocators.set (a : Allocators) (alloc : Allocator) : Memory → Allocators
  | .l1 => { a with l1 := alloc }
  | .l3 => { a with l3 := alloc }

@[simp] theorem Allocators.at_set (a : Allocators) (alloc : Allocator) (m m' : Memory) :
    (a.set alloc m).at m' = if m' = m then alloc else a.at m' := by
  cases m <;> cases m' <;> rfl

/-- What a call takes from its memory. -/
def Request.total (sys : System) (r : Request) : BitVec 32 :=
  match r.kind with
  | .clusterLocal | .l3 => r.size
  | .computeCoreLocal => r.size * sys.snrtClusterComputeCoreNum

/-- Where the first block of a call starts. -/
def Request.first (r : Request) (a : Allocators) : Allocator :=
  alignNext r.alignment (a.at r.kind.memory)

/-- The allocators after a call, which are the same on all cores. -/
def Request.advance (sys : System) (r : Request) (a : Allocators) : Allocators :=
  a.set (addNext (r.total sys) (r.first a)) r.kind.memory

/-- The offset of the block of core `i`. -/
def Request.offset (sys : System) (r : Request) (i : sys.Core) : BitVec 32 :=
  match r.kind with
  | .clusterLocal | .l3 => 0
  | .computeCoreLocal => r.size * sys.snrtClusterCoreIdx i

section Call

variable {sys : System} {r : Request} {a a' : Allocators} {i : sys.Core} {ptr : BitVec 32}

/-- **What a call does on a core**, whose bounds check succeeds. -/
theorem Request.perform_eq (done : r.perform sys i a = some (ptr, a')) :
    a' = r.advance sys a ∧ ptr = (r.first a).next.setWidth 32 + r.offset sys i ∧
      (a'.at r.kind.memory).next.toNat ≤ (a'.at r.kind.memory).end_.toNat := by
  obtain ⟨kind, size, alignment, positive⟩ := r
  cases kind <;>
    simp only [perform, snrtL1AllocClusterLocal, snrtL1AllocComputeCoreLocal, snrtL3AllocV2,
      Option.map_eq_some_iff, Prod.mk.injEq, Prod.exists, Option.ite_none_left_eq_some,
      Option.some.injEq] at done <;>
    obtain ⟨ptr', alloc, ⟨within, rfl, rfl⟩, rfl, rfl⟩ := done <;>
    refine ⟨rfl, ?_, ?_⟩
  · simp [first, offset, Allocators.at, Kind.memory]
  · simpa [Allocators.at, Kind.memory, BitVec.le_def] using within
  · rfl
  · simpa [Allocators.at, Kind.memory, BitVec.le_def] using within
  · simp [first, offset, Allocators.at, Kind.memory]
  · exact Nat.le_of_lt (by simpa [Allocators.at, Kind.memory, BitVec.lt_def] using within)

theorem Request.advance_at (sys : System) (r : Request) (a : Allocators) (m : Memory) :
    (r.advance sys a).at m =
      if m = r.kind.memory then addNext (r.total sys) (r.first a) else a.at m := by
  rw [advance, Allocators.at_set]

/-- The bounds stay as they are. -/
theorem Request.advance_bounds (sys : System) (r : Request) (a : Allocators) (m : Memory) :
    ((r.advance sys a).at m).base = (a.at m).base ∧ ((r.advance sys a).at m).end_ = (a.at m).end_ := by
  rw [advance_at]
  split
  next same => subst same; exact ⟨rfl, rfl⟩
  next => exact ⟨rfl, rfl⟩

/-- Where a call's blocks start, and where the next ones may. -/
theorem Request.Fits.extent (fits : r.Fits sys a) :
    r.alignment.toNat ∣ (r.first a).next.toNat ∧
      (a.at r.kind.memory).next.toNat ≤ (r.first a).next.toNat ∧ (r.first a).next.toNat < 2 ^ 32 ∧
      ((r.advance sys a).at r.kind.memory).next.toNat =
        (r.first a).next.toNat + (r.total sys).toNat := by
  have room := fits.1
  have positive := r.positive
  have narrow : ((a.at r.kind.memory).next.setWidth 32).toNat = (a.at r.kind.memory).next.toNat := by
    rw [BitVec.toNat_setWidth]
    exact Nat.mod_eq_of_lt (by omega)
  obtain ⟨after, -⟩ := alignUp_bounds positive (narrow.symm ▸ room)
  have width := (snrtAlignUp ((a.at r.kind.memory).next.setWidth 32) r.alignment 0).isLt
  have first : (r.first a).next.toNat =
      (snrtAlignUp ((a.at r.kind.memory).next.setWidth 32) r.alignment 0).toNat := by
    rw [Request.first, alignNext, BitVec.toNat_setWidth]
    exact Nat.mod_eq_of_lt (by omega)
  have total := (r.total sys).isLt
  refine ⟨first ▸ dvd_alignUp _ _, by rw [first, ← narrow]; exact after, by rw [first]; exact width, ?_⟩
  rw [Request.advance_at, if_pos rfl, addNext, BitVec.toNat_add, BitVec.toNat_setWidth]
  omega

/-- The next addresses only grow. -/
theorem Request.Fits.le_advance (fits : r.Fits sys a) (m : Memory) :
    (a.at m).next.toNat ≤ ((r.advance sys a).at m).next.toNat := by
  obtain ⟨-, after, -, next⟩ := fits.extent
  by_cases same : m = r.kind.memory
  · rw [same, next]
    omega
  · rw [Request.advance_at, if_neg same]

theorem snrtClusterCoreIdx_eq (i : sys.Core) : (sys.snrtClusterCoreIdx i).toNat = i := by
  have harts := sys.harts
  have core := i.isLt
  have number : (sys.snrtGlobalCoreIdx (sys.mhartid i)).toNat =
      sys.cluster * sys.clusterCoreNum.toNat + i := by
    rw [System.mhartid, Config.snrtGlobalCoreIdx, Config.hart_sub, BitVec.toNat_ofNat]
    exact Nat.mod_eq_of_lt (by omega)
  rw [System.snrtClusterCoreIdx, BitVec.toNat_umod, number]
  exact (Config.core_split core _).2

theorem Request.block_addr {b : Block} {k : Nat} (got : r.block sys k i ptr a = some b) :
    b.addr = ptr := by
  unfold Request.block at got
  split at got
  · cases got; rfl
  · cases got; rfl
  · obtain ⟨-, got⟩ := Option.ite_none_right_eq_some.mp got
    cases got
    rfl

/-- The block of a core lies in what its call takes. -/
theorem Request.Fits.block {b : Block} {k : Nat} (fits : r.Fits sys a)
    (space : (a.at r.kind.memory).end_.toNat ≤ 2 ^ 32)
    (done : r.perform sys i a = some (ptr, a')) (got : r.block sys k i ptr a' = some b) :
    b.memory = r.kind.memory ∧ b.size = r.size ∧ b.alignment = r.alignment ∧
      b.base = (a.at r.kind.memory).base ∧ b.end_ = (a.at r.kind.memory).end_ ∧
      b.source = (if r.kind = .computeCoreLocal then .own k i else .shared k) ∧
      b.addr.toNat = (r.first a).next.toNat +
        (if r.kind = .computeCoreLocal then r.size.toNat * i else 0) ∧
      b.addr.toNat + b.size.toNat ≤ (a'.at r.kind.memory).next.toNat := by
  obtain ⟨rfl, rfl, within⟩ := Request.perform_eq done
  obtain ⟨-, -, narrow, next⟩ := fits.extent
  obtain ⟨base, stop⟩ := r.advance_bounds sys a r.kind.memory
  rw [stop, next] at within
  have start : ((r.first a).next.setWidth 32).toNat = (r.first a).next.toNat := by
    rw [BitVec.toNat_setWidth]
    exact Nat.mod_eq_of_lt narrow
  by_cases own : r.kind = .computeCoreLocal
  · have whole := fits.2 own
    have total : (r.total sys).toNat = r.size.toNat * sys.snrtClusterComputeCoreNum.toNat := by
      rw [Request.total, own, BitVec.toNat_mul]
      exact Nat.mod_eq_of_lt whole
    simp only [Request.block, own, Option.ite_none_right_eq_some, Option.some.injEq] at got
    obtain ⟨compute, rfl⟩ := got
    rw [BitVec.lt_def, snrtClusterCoreIdx_eq] at compute
    have mine : r.size.toNat * i + r.size.toNat ≤
        r.size.toNat * sys.snrtClusterComputeCoreNum.toNat := by
      rw [← Nat.mul_succ]
      exact Nat.mul_le_mul_left _ compute
    have offset : (r.offset sys i).toNat = r.size.toNat * i := by
      rw [Request.offset, own, BitVec.toNat_mul, snrtClusterCoreIdx_eq]
      exact Nat.mod_eq_of_lt (by omega)
    have addr : ((r.first a).next.setWidth 32 + r.offset sys i).toNat =
        (r.first a).next.toNat + r.size.toNat * i := by
      rw [BitVec.toNat_add, start, offset, Nat.mod_eq_of_lt]
      rcases Nat.eq_zero_or_pos r.size.toNat with none | some
      · rw [none, Nat.zero_mul, Nat.add_zero]
        exact narrow
      · omega
    refine ⟨own ▸ rfl, rfl, rfl, own ▸ base, own ▸ stop, by rw [if_pos own],
      by rw [if_pos own]; exact addr, ?_⟩
    rw [addr, next, total]
    change _ + r.size.toNat ≤ _
    omega
  · have total : r.total sys = r.size := by
      cases kind : r.kind <;> simp_all [Request.total]
    have offset : r.offset sys i = 0 := by
      cases kind : r.kind <;> simp_all [Request.offset]
    have got' : b = {
        memory := r.kind.memory, source := .shared k,
        addr := (r.first a).next.setWidth 32 + r.offset sys i, size := r.size,
        alignment := r.alignment, base := ((r.advance sys a).at r.kind.memory).base,
        end_ := ((r.advance sys a).at r.kind.memory).end_ } := by
      cases kind : r.kind <;> simp_all [Request.block]
    subst got'
    have addr : ((r.first a).next.setWidth 32 + r.offset sys i).toNat = (r.first a).next.toNat := by
      rw [offset, show (r.first a).next.setWidth 32 + 0 = _ from BitVec.add_zero _, start]
    refine ⟨rfl, rfl, rfl, base, stop, by rw [if_neg own], by rw [if_neg own]; exact addr, ?_⟩
    rw [addr, next, total]

end Call

/-! ## All calls -/

/-- The allocators of a core after `k` calls. -/
def replay (sys : System) (program : List Request) (k : Nat) : Allocators :=
  (program.take k).foldl (fun a r => r.advance sys a) ⟨sys.heap sys.cluster, sys.snrtL3Init⟩

/-- Call `k` wraps nothing and ends in its memory. -/
def Good (sys : System) (program : List Request) (k : Nat) : Prop :=
  ∃ r, program[k]? = some r ∧ r.Fits sys (replay sys program k) ∧
    ((replay sys program (k + 1)).at r.kind.memory).next.toNat ≤
      ((replay sys program (k + 1)).at r.kind.memory).end_.toNat

section Replay

variable {sys : System} {program : List Request} {k : Nat} {r : Request}

theorem replay_succ (call : program[k]? = some r) :
    replay sys program (k + 1) = r.advance sys (replay sys program k) := by
  rw [replay, replay, List.take_add_one, call, Option.toList_some, List.foldl_append]
  rfl

theorem replay_bounds (k : Nat) (m : Memory) :
    ((replay sys program k).at m).base = ((replay sys program 0).at m).base ∧
      ((replay sys program k).at m).end_ = ((replay sys program 0).at m).end_ := by
  induction k with
  | zero => exact ⟨rfl, rfl⟩
  | succ k ih =>
    cases call : program[k]? with
    | none =>
      have all : program.length ≤ k := List.getElem?_eq_none_iff.mp call
      rw [replay, List.take_of_length_le (by omega), ← List.take_of_length_le all]
      exact ih
    | some r =>
      rw [replay_succ call, (r.advance_bounds sys _ m).1, (r.advance_bounds sys _ m).2]
      exact ih

theorem replay_space (k : Nat) (m : Memory) : ((replay sys program k).at m).end_.toNat ≤ 2 ^ 32 := by
  rw [(replay_bounds k m).2]
  cases m with
  | l1 =>
    refine Nat.le_of_lt ?_
    simp only [replay, List.take_zero, List.foldl_nil, Allocators.at, Config.heap,
      Config.snrtL1Init, BitVec.toNat_setWidth]
    exact Nat.lt_of_le_of_lt (Nat.mod_le _ _) (BitVec.isLt _)
  | l3 => exact sys.l3End_le

/-- Later calls take later addresses. -/
theorem replay_mono {j k : Nat} (le : j ≤ k) (good : ∀ i < k, Good sys program i) (m : Memory) :
    ((replay sys program j).at m).next.toNat ≤ ((replay sys program k).at m).next.toNat := by
  induction k, le using Nat.le_induction with
  | base => exact Nat.le_refl _
  | succ k le ih =>
    obtain ⟨r, call, fits, -⟩ := good k (Nat.lt_succ_self k)
    rw [replay_succ call]
    exact (ih fun i less => good i (Nat.lt_succ_of_lt less)).trans (fits.le_advance m)

theorem base_le_replay (good : ∀ i < k, Good sys program i) (m : Memory) :
    ((replay sys program k).at m).base.toNat ≤ ((replay sys program k).at m).next.toNat := by
  rw [(replay_bounds k m).1]
  have start : ((replay sys program 0).at m).base = ((replay sys program 0).at m).next := by
    cases m <;> rfl
  rw [start]
  exact replay_mono (Nat.zero_le k) good m

end Replay

/-- A block of call `k`, as core `i` got it. -/
def FromCall (sys : System) (program : List Request) (b : Block) (k : Nat) (i : sys.Core) : Prop :=
  Good sys program k ∧ ∃ r ptr, program[k]? = some r ∧
    r.perform sys i (replay sys program k) = some (ptr, replay sys program (k + 1)) ∧
      r.block sys k i ptr (replay sys program (k + 1)) = some b

/-- A block of the first generation, in an allocator that has come to `next`. -/
structure FromSingle (b : Block) (next : BitVec 64) : Prop where
  alignment : b.alignment = minChunkSize
  aligned : 8 ∣ b.addr.toNat
  base : b.base.toNat ≤ b.addr.toNat
  end_ : b.addr.toNat + b.size.toNat ≤ b.end_.toNat
  next : b.memory = .l1 → b.addr.toNat + b.size.toNat ≤ next.toNat
  empty : b.memory = .l3 → b.size = 0

/-- What holds between two calls. -/
structure Inv (sys : System) (program : List Request) (s : State sys) : Prop where
  core : ∀ i, (s.cores i).allocs = replay sys program (s.cores i).done
  good : ∀ i, ∀ k < (s.cores i).done, Good sys program k
  collective : ∀ b ∈ s.blocks, b.source.isSingle = false →
    ∃ k i, k < (s.cores i).done ∧ FromCall sys program b k i
  single : ∀ b ∈ s.blocks, b.source.isSingle = true → FromSingle b s.l1.next
  index : ∀ b ∈ s.blocks, ∀ n, b.source = .single n → n < s.blocks.length
  apart : ∀ b ∈ s.blocks, ∀ b' ∈ s.blocks, b.source.isSingle = true → b'.source.isSingle = true →
    b.memory = .l1 → b'.memory = .l1 → b.source ≠ b'.source → Disjoint b.bytes b'.bytes
  oneGeneration : ∀ b ∈ s.blocks, ∀ b' ∈ s.blocks, b.memory = .l1 → b'.memory = .l1 →
    b.size ≠ 0 → b'.size ≠ 0 → b.source.isSingle = b'.source.isSingle
  l1 : s.l1.end_ = sys.l1AllocInit.end_ ∧ 8 ∣ s.l1.next.toNat ∧ s.l1.base.toNat ≤ s.l1.next.toNat
  l3 : s.l3 = sys.l3AllocInit

section Steps

variable {sys : System} {program : List Request} {s : State sys}

section

variable (inv : Inv sys program s)

include inv

/-- A core makes its next call. -/
theorem Inv.collective_step {i : sys.Core} {r : Request} {ptr : BitVec 32}
    {allocs : Allocators} (call : program[(s.cores i).done]? = some r)
    (done : r.perform sys i (s.cores i).allocs = some (ptr, allocs))
    (fits : r.Fits sys (s.cores i).allocs)
    (alone : r.kind.memory = .l1 → r.size ≠ 0 → ∀ b ∈ s.blocks, b.memory = .l1 → b.size ≠ 0 →
      b.source.isSingle = false) : Inv sys program { s with
      cores := Function.update s.cores i { allocs, done := (s.cores i).done + 1 }
      blocks := (r.block sys (s.cores i).done i ptr allocs).toList ++ s.blocks } := by
  rw [inv.core i] at done fits
  obtain ⟨next, -, within⟩ := Request.perform_eq done
  have now : allocs = replay sys program ((s.cores i).done + 1) := next.trans (replay_succ call).symm
  have good : Good sys program (s.cores i).done := ⟨r, call, fits, by rw [← now]; exact within⟩
  have more : ∀ j, (s.cores j).done ≤
      (Function.update s.cores i { allocs, done := (s.cores i).done + 1 } j).done := by
    intro j
    by_cases me : j = i
    · subst me
      simp
    · simp [Function.update_of_ne me]
  -- the block of this call, if the core gets one
  have fresh : ∀ b, r.block sys (s.cores i).done i ptr allocs = some b →
      FromCall sys program b (s.cores i).done i ∧ b.memory = r.kind.memory ∧ b.size = r.size ∧
        b.source.isSingle = false := by
    intro b got
    rw [now] at got done
    obtain ⟨memory, size, -, -, -, source, -⟩ := fits.block (replay_space _ _) done got
    refine ⟨⟨good, r, ptr, call, done, got⟩, memory, size, ?_⟩
    rw [source]
    split <;> rfl
  have either : ∀ b ∈ (r.block sys (s.cores i).done i ptr allocs).toList ++ s.blocks,
      r.block sys (s.cores i).done i ptr allocs = some b ∨ b ∈ s.blocks := by
    intro b here
    simpa using here
  exact {
    core := forall_update (fun (_ : sys.Core) (core : Core) =>
      core.allocs = replay sys program core.done) now fun j _ => inv.core j
    good := by
      refine forall_update (fun (_ : sys.Core) (core : Core) => ∀ k < core.done, Good sys program k)
        (fun k less => ?_) fun j _ => inv.good j
      rcases Nat.lt_succ_iff_lt_or_eq.mp less with before | rfl
      · exact inv.good i k before
      · exact good
    collective := by
      intro b here shared
      rcases either b here with new | old
      · exact ⟨_, i, by simp, (fresh b new).1⟩
      · obtain ⟨k, j, less, from_⟩ := inv.collective b old shared
        exact ⟨k, j, less.trans_le (more j), from_⟩
    single := by
      intro b here single
      rcases either b here with new | old
      · rw [(fresh b new).2.2.2] at single
        cases single
      · exact inv.single b old single
    index := by
      intro b here n source
      rcases either b here with new | old
      · have shared := (fresh b new).2.2.2
        rw [source] at shared
        cases shared
      · exact (inv.index b old n source).trans_le (by simp)
    apart := by
      intro b here b' here' single single'
      rcases either b here with new | old
      · rw [(fresh b new).2.2.2] at single
        cases single
      · rcases either b' here' with new' | old'
        · rw [(fresh b' new').2.2.2] at single'
          cases single'
        · exact inv.apart b old b' old' single single'
    oneGeneration := by
      intro b here b' here' memory memory' some some'
      rcases either b here with new | old
      · obtain ⟨-, same, size, shared⟩ := fresh b new
        rcases either b' here' with new' | old'
        · rw [shared, (fresh b' new').2.2.2]
        · rw [shared, alone (same ▸ memory) (size ▸ some) b' old' memory' some']
      · rcases either b' here' with new' | old'
        · obtain ⟨-, same, size, shared⟩ := fresh b' new'
          rw [shared, alone (same ▸ memory') (size ▸ some') b old memory some]
        · exact inv.oneGeneration b old b' old' memory memory' some some'
    l1 := inv.l1
    l3 := inv.l3 }

/-- A block of the first generation joins the others, at or past the end of those in L1. -/
theorem Inv.adds {b : Block} {l1 : Allocator}
    (source : b.source = .single s.blocks.length) (fresh : FromSingle b l1.next)
    (alone : b.memory = .l1 → b.size ≠ 0 → ∀ b' ∈ s.blocks, b'.memory = .l1 → b'.size ≠ 0 →
      b'.source.isSingle = true)
    (above : b.memory = .l1 → s.l1.next.toNat ≤ b.addr.toNat) (grows : s.l1.next.toNat ≤ l1.next.toNat)
    (alloc : l1.end_ = sys.l1AllocInit.end_ ∧ 8 ∣ l1.next.toNat ∧ l1.base.toNat ≤ l1.next.toNat) :
    Inv sys program { s with l1, blocks := b :: s.blocks } := by
  have mine : b.source.isSingle = true := by rw [source]; rfl
  have below : ∀ b' ∈ s.blocks, b'.source.isSingle = true → b'.memory = .l1 → b.memory = .l1 →
      Disjoint b'.bytes b.bytes := by
    intro b' here single memory memory'
    rw [Block.bytes, Block.bytes, Set.Ico_disjoint_Ico]
    have upto := (inv.single b' here single).next memory
    have from_ := above memory'
    omega
  exact {
    core := inv.core
    good := inv.good
    collective := by
      intro b' here shared
      rcases List.mem_cons.mp here with rfl | old
      · rw [mine] at shared
        cases shared
      · exact inv.collective b' old shared
    single := by
      intro b' here single
      rcases List.mem_cons.mp here with rfl | old
      · exact fresh
      · have before := inv.single b' old single
        exact { before with next := fun memory => (before.next memory).trans grows }
    index := by
      intro b' here n is
      rcases List.mem_cons.mp here with rfl | old
      · rw [source] at is
        cases is
        simp
      · exact (inv.index b' old n is).trans (by simp)
    apart := by
      intro b' here b'' here' single single' memory memory' other
      rcases List.mem_cons.mp here with rfl | old
      · rcases List.mem_cons.mp here' with rfl | old'
        · exact absurd rfl other
        · exact (below b'' old' single' memory' memory).symm
      · rcases List.mem_cons.mp here' with rfl | old'
        · exact below b' old single memory memory'
        · exact inv.apart b' old b'' old' single single' memory memory' other
    oneGeneration := by
      intro b' here b'' here' memory memory' some some'
      rcases List.mem_cons.mp here with rfl | old
      · rcases List.mem_cons.mp here' with rfl | old'
        · rfl
        · rw [mine, alone memory some b'' old' memory' some']
      · rcases List.mem_cons.mp here' with rfl | old'
        · rw [mine, alone memory' some' b' old memory some]
        · exact inv.oneGeneration b' old b'' old' memory memory' some some'
    l1 := alloc
    l3 := inv.l3 }

theorem Inv.l1Alloc_step {size : BitVec 32}
    (alone : size ≠ 0 → ∀ b ∈ s.blocks, b.memory = .l1 → b.size ≠ 0 → b.source.isSingle = true)
    (small : size.toNat + 8 ≤ 2 ^ 32) (room : s.l1.next.toNat + size.toNat ≤ s.l1.end_.toNat) {t}
    (taken : step sys program (.l1Alloc size) s = some t) : Inv sys program t := by
  simp only [step, snrtAlloc, Option.some.injEq] at taken
  subst taken
  obtain ⟨stop, aligned, base⟩ := inv.l1
  have chunk : 8 ∣ (snrtAlignUp size minChunkSize 0).toNat := dvd_alignUp size minChunkSize
  have least : size.toNat ≤ (snrtAlignUp size minChunkSize 0).toNat :=
    (alignUp_bounds (by decide) small).1
  have space : s.l1.end_.toNat < 2 ^ 32 := by
    rw [stop, System.l1AllocInit, BitVec.toNat_setWidth]
    exact Nat.lt_of_le_of_lt (Nat.mod_le _ _) (BitVec.isLt _)
  have addr : (s.l1.next.setWidth 32).toNat = s.l1.next.toNat := by
    rw [BitVec.toNat_setWidth]
    exact Nat.mod_eq_of_lt (by omega)
  have next : (s.l1.next + (snrtAlignUp size minChunkSize 0).setWidth 64).toNat =
      s.l1.next.toNat + (snrtAlignUp size minChunkSize 0).toNat := by
    rw [BitVec.toNat_add, BitVec.toNat_setWidth]
    omega
  refine inv.adds rfl ?_ (fun _ => alone) (fun _ => addr.ge) ?_ ⟨stop, ?_, ?_⟩
  · exact {
      alignment := rfl
      aligned := by rw [addr]; exact aligned
      base := by rw [addr]; exact base
      end_ := by rw [addr]; exact room
      next := fun _ => by rw [addr, next]; exact Nat.add_le_add_left least _
      empty := fun never => by cases never }
  · rw [next]
    omega
  · rw [next]
    exact Nat.dvd_add aligned chunk
  · rw [next]
    exact base.trans (Nat.le_add_right _ _)

/-- All of the first generation's L3 is empty. -/
theorem Inv.l3Alloc_step {t}
    (taken : step sys program (.l3Alloc 0) s = some t) : Inv sys program t := by
  simp only [step, snrtAlloc, Option.some.injEq] at taken
  subst taken
  have still : { s.l3 with next := s.l3.next + (snrtAlignUp 0 minChunkSize 0).setWidth 64 } = s.l3 := by
    have none : (snrtAlignUp 0 minChunkSize 0).setWidth 64 = 0 := by decide
    rw [none, show s.l3.next + 0 = _ from BitVec.add_zero _]
  have base : s.l3.next.toNat < 2 ^ 32 ∧ s.l3.base = s.l3.next ∧ s.l3.end_ = s.l3.next ∧
      8 ∣ s.l3.next.toNat := by
    rw [inv.l3]
    have width := (snrtAlignUp sys.edram minChunkSize 0).isLt
    have start : (sys.l3AllocInit.next).toNat = (snrtAlignUp sys.edram minChunkSize 0).toNat := by
      rw [System.l3AllocInit, BitVec.toNat_setWidth]
      exact Nat.mod_eq_of_lt (by omega)
    exact ⟨start ▸ width, rfl, rfl, start ▸ dvd_alignUp _ _⟩
  have addr : (s.l3.next.setWidth 32).toNat = s.l3.next.toNat := by
    rw [BitVec.toNat_setWidth]
    exact Nat.mod_eq_of_lt base.1
  rw [still]
  refine inv.adds rfl ?_ (fun never => by cases never) (fun never => by cases never)
    (Nat.le_refl _) inv.l1
  exact {
    alignment := rfl
    aligned := by rw [addr]; exact base.2.2.2
    base := by rw [addr]; exact (congrArg BitVec.toNat base.2.1).le
    end_ := by rw [addr]; exact (congrArg BitVec.toNat base.2.2.1).ge
    next := fun never => by cases never
    empty := fun _ => rfl }

/-- **One call.** -/
theorem Inv.step {label : Label sys} (admitted : Admits sys program s label)
    {t : State sys} (taken : (cores sys program).step label s = some t) : Inv sys program t := by
  cases label with
  | collective i =>
    simp only [cores, Alloc.step] at taken
    cases call : program[(s.cores i).done]? with
    | none => simp [call] at taken
    | some r =>
      cases done : r.perform sys i (s.cores i).allocs with
      | none => simp [call, done] at taken
      | some result =>
        obtain ⟨ptr, allocs⟩ := result
        simp only [call, done, Option.some.injEq] at taken
        subst taken
        obtain ⟨fits, alone⟩ := admitted r call
        exact inv.collective_step call done fits alone
  | l1Alloc size => exact inv.l1Alloc_step admitted.1 admitted.2.1 admitted.2.2 taken
  | l3Alloc size =>
    have none : size = 0 := admitted
    subst none
    exact inv.l3Alloc_step taken

end

theorem Inv.start (sys : System) (program : List Request) : Inv sys program (start sys) where
  core i := by
    simp only [Alloc.start, replay, List.take_zero, List.foldl_nil, System.mhartid]
    rw [Config.snrtL1Init_hart sys.harts i.isLt]
  good _ _ never := absurd never (Nat.not_lt_zero _)
  collective _ never := by cases never
  single _ never := by cases never
  index _ never := by cases never
  apart _ never := by cases never
  oneGeneration _ never := by cases never
  l1 := by
    have base := dvd_alignUp (sys.tcdmMem (sys.snrtClusterIdx (sys.hart sys.cluster 0))) minChunkSize
    have width := (snrtAlignUp (sys.tcdmMem (sys.snrtClusterIdx (sys.hart sys.cluster 0)))
      minChunkSize 0).isLt
    refine ⟨rfl, ?_, Nat.le_refl _⟩
    simp only [Alloc.start, System.l1AllocInit, BitVec.toNat_setWidth]
    rw [Nat.mod_eq_of_lt (by omega)]
    exact base
  l3 := rfl

theorem reached_inv (reached : (cores sys program).Reaches (Admits sys program) (start sys) s) :
    Inv sys program s :=
  reached.invariant (Inv sys program) (.start sys program)
    fun _ _ _ inv admitted taken => inv.step admitted taken

end Steps

/-! ## The blocks -/

/-- Where the first block of its call starts: a call aligns the blocks of all cores together. -/
def Block.whole (b : Block) : Nat :=
  match b.source with
  | .single _ | .shared _ => b.addr.toNat
  | .own _ core => b.addr.toNat - b.size.toNat * core

section Blocks

variable {sys : System} {program : List Request} {b b' : Block} {k k' : Nat} {i j : sys.Core}

/-- A block of a call lies between where the call starts and where it ends. -/
theorem FromCall.extent (from_ : FromCall sys program b k i) :
    ((replay sys program k).at b.memory).next.toNat ≤ b.addr.toNat ∧
      b.addr.toNat + b.size.toNat ≤ ((replay sys program (k + 1)).at b.memory).next.toNat ∧
      ((replay sys program (k + 1)).at b.memory).next.toNat ≤ b.end_.toNat ∧
      b.base = ((replay sys program k).at b.memory).base ∧ b.alignment.toNat ∣ b.whole := by
  obtain ⟨⟨r, call, fits, within⟩, r', ptr, call', done, got⟩ := from_
  obtain rfl : r = r' := Option.some.inj (call.symm.trans call')
  obtain ⟨memory, size, alignment, base, stop, source, addr, upto⟩ :=
    fits.block (replay_space _ _) done got
  obtain ⟨aligned, after, -, -⟩ := fits.extent
  rw [memory]
  refine ⟨by omega, upto, ?_, base, ?_⟩
  · rw [(replay_bounds (k + 1) _).2, ← (replay_bounds k _).2, ← stop] at within
    exact within
  · unfold Block.whole
    rw [source, alignment]
    split at source <;> simp_all

/-- Two blocks of one call are one block, or those of two cores. -/
theorem FromCall.same (from_ : FromCall sys program b k i) (from' : FromCall sys program b' k j) :
    (b.source = .shared k ∧ b'.source = .shared k ∧ b.addr = b'.addr) ∨
      (b.source = .own k i ∧ b'.source = .own k j ∧ b.size = b'.size ∧
        (i < j → b.addr.toNat + b.size.toNat ≤ b'.addr.toNat) ∧
        snrtComputeCoreLocalPtr (sys.snrtClusterCoreIdx i) b.addr (sys.snrtClusterCoreIdx j) b.size =
          b'.addr) := by
  obtain ⟨⟨r, call, fits, -⟩, r₁, ptr, call₁, done, got⟩ := from_
  obtain ⟨-, r₂, ptr', call₂, done', got'⟩ := from'
  obtain rfl : r = r₁ := Option.some.inj (call.symm.trans call₁)
  obtain rfl : r = r₂ := Option.some.inj (call.symm.trans call₂)
  obtain ⟨-, size, -, -, -, source, addr, -⟩ := fits.block (replay_space _ _) done got
  obtain ⟨-, size', -, -, -, source', addr', -⟩ := fits.block (replay_space _ _) done' got'
  by_cases own : r.kind = .computeCoreLocal
  · rw [if_pos own] at source source' addr addr'
    refine Or.inr ⟨source, source', size.trans size'.symm, fun less => ?_, ?_⟩
    · have step : r.size.toNat * i + r.size.toNat ≤ r.size.toNat * j := by
        rw [← Nat.mul_succ]
        exact Nat.mul_le_mul_left _ less
      rw [addr, addr', size]
      omega
    · rw [size, Request.block_addr got, Request.block_addr got', (Request.perform_eq done).2.1,
        (Request.perform_eq done').2.1, snrtComputeCoreLocalPtr, Request.offset, Request.offset, own]
      ring
  · rw [if_neg own] at source source' addr addr'
    exact Or.inl ⟨source, source', BitVec.eq_of_toNat_eq (addr.trans addr'.symm)⟩

/-- A block knows its call. -/
theorem FromCall.source (from_ : FromCall sys program b k i) :
    b.source = .shared k ∨ b.source = .own k i := by
  rcases from_.same from_ with ⟨shared, -⟩ | ⟨own, -⟩
  · exact Or.inl shared
  · exact Or.inr own

theorem disjoint_of_le (le : b.addr.toNat + b.size.toNat ≤ b'.addr.toNat) :
    Disjoint b.bytes b'.bytes := by
  rw [Block.bytes, Block.bytes, Set.Ico_disjoint_Ico]
  omega

/-- Two blocks of the second generation. -/
theorem Inv.disjoint_collective {s : State sys} (inv : Inv sys program s) (here : b ∈ s.blocks)
    (here' : b' ∈ s.blocks) (shared : b.source.isSingle = false) (shared' : b'.source.isSingle = false)
    (memory : b.memory = b'.memory) (other : b.source ≠ b'.source) : Disjoint b.bytes b'.bytes := by
  obtain ⟨k, i, less, from_⟩ := inv.collective b here shared
  obtain ⟨k', j, less', from'⟩ := inv.collective b' here' shared'
  obtain ⟨after, upto, -⟩ := from_.extent
  obtain ⟨after', upto', -⟩ := from'.extent
  rcases Nat.lt_trichotomy k k' with before | rfl | before
  · have mono := replay_mono before (fun l earlier => inv.good j l (earlier.trans less')) b'.memory
    rw [memory] at upto
    exact disjoint_of_le (upto.trans (mono.trans after'))
  · rcases from_.same from' with ⟨source, source', -⟩ | ⟨source, source', -, apart, -⟩
    · exact absurd (source.trans source'.symm) other
    · rcases from'.same from_ with ⟨never, -⟩ | ⟨-, -, -, apart', -⟩
      · rw [source'] at never
        cases never
      · have cores : i ≠ j := by
          rintro rfl
          exact other (source.trans source'.symm)
        rcases lt_or_gt_of_ne cores with lower | lower
        · exact disjoint_of_le (apart lower)
        · exact (disjoint_of_le (apart' lower)).symm
  · have mono := replay_mono before (fun l earlier => inv.good i l (earlier.trans less)) b.memory
    rw [← memory] at upto'
    exact (disjoint_of_le (upto'.trans (mono.trans after))).symm

theorem Inv.disjoint {s : State sys} (inv : Inv sys program s) (here : b ∈ s.blocks)
    (here' : b' ∈ s.blocks) (memory : b.memory = b'.memory) (other : b.source ≠ b'.source) :
    Disjoint b.bytes b'.bytes := by
  have empty : ∀ b b' : Block, b.size = 0 → Disjoint b.bytes b'.bytes := by
    intro b b' none
    have nothing : b.bytes = ∅ := by
      rw [Block.bytes, none]
      exact Set.Ico_self _
    rw [nothing]
    exact Set.empty_disjoint _
  by_cases none : b.size = 0
  · exact empty b b' none
  by_cases none' : b'.size = 0
  · exact (empty b' b none').symm
  have l1_of_single : ∀ c ∈ s.blocks, c.source.isSingle = true → c.size ≠ 0 → c.memory = .l1 := by
    intro c there single some
    cases is : c.memory with
    | l1 => rfl
    | l3 => exact absurd ((inv.single c there single).empty is) some
  cases single : b.source.isSingle with
  | true =>
    have l1 := l1_of_single b here single none
    have single' := inv.oneGeneration b here b' here' l1 (memory ▸ l1) none none'
    exact inv.apart b here b' here' single (single'.symm.trans single) l1 (memory ▸ l1) other
  | false =>
    cases single' : b'.source.isSingle with
    | true =>
      have l1 := l1_of_single b' here' single' none'
      have same := inv.oneGeneration b here b' here' (memory ▸ l1) l1 none none'
      rw [single, single'] at same
      cases same
    | false => exact inv.disjoint_collective here here' single single' memory other

end Blocks

/-- **The blocks are apart.**  In every run of admitted calls each block lies in its
allocator's bounds and is aligned as its call asked, blocks of one memory are disjoint, a
block for all cores is the same on all, and the blocks of the compute cores are found
from one another. -/
theorem blocks_apart (sys : System) (program : List Request) {s : State sys}
    (reached : (cores sys program).Reaches (Admits sys program) (start sys) s) :
    (∀ b ∈ s.blocks, b.alignment.toNat ∣ b.whole ∧ b.base.toNat ≤ b.addr.toNat ∧
        b.addr.toNat + b.size.toNat ≤ b.end_.toNat) ∧
      (∀ b ∈ s.blocks, ∀ b' ∈ s.blocks, b.memory = b'.memory → b.source ≠ b'.source →
        Disjoint b.bytes b'.bytes) ∧
      (∀ b ∈ s.blocks, ∀ b' ∈ s.blocks, ∀ k, b.source = .shared k → b'.source = .shared k →
        b.addr = b'.addr) ∧
      ∀ b ∈ s.blocks, ∀ b' ∈ s.blocks, ∀ (k : Nat) (i j : sys.Core), b.source = .own k i →
        b'.source = .own k j → snrtComputeCoreLocalPtr (sys.snrtClusterCoreIdx i) b.addr
          (sys.snrtClusterCoreIdx j) b.size = b'.addr := by
  have inv := reached_inv reached
  refine ⟨fun b here => ?_, fun b here b' here' memory other => ?_, ?_, ?_⟩
  · cases single : b.source.isSingle with
    | true =>
      obtain ⟨eight, aligned, base, stop, -, -⟩ := inv.single b here single
      refine ⟨?_, base, stop⟩
      have whole : b.whole = b.addr.toNat := by
        unfold Block.whole
        cases source : b.source <;> simp_all [Source.isSingle]
      rw [whole, eight]
      exact aligned
    | false =>
      obtain ⟨k, i, less, from_⟩ := inv.collective b here single
      obtain ⟨after, upto, within, base, aligned⟩ := from_.extent
      have above := base_le_replay (fun j earlier => inv.good i j (earlier.trans less)) b.memory
      rw [← base] at above
      exact ⟨aligned, above.trans after, upto.trans within⟩
  · exact inv.disjoint here here' memory other
  · intro b here b' here' k source source'
    obtain ⟨k₁, i, -, from_⟩ := inv.collective b here (by rw [source]; rfl)
    obtain ⟨k₂, j, -, from'⟩ := inv.collective b' here' (by rw [source']; rfl)
    have call := from_.source
    have call' := from'.source
    rw [source, Source.shared.injEq] at call
    rw [source', Source.shared.injEq] at call'
    obtain rfl : k = k₁ := call.resolve_right fun never => by cases never
    obtain rfl : k = k₂ := call'.resolve_right fun never => by cases never
    rcases from_.same from' with ⟨-, -, addr⟩ | ⟨never, -⟩
    · exact addr
    · rw [source] at never
      cases never
  · intro b here b' here' k i j source source'
    obtain ⟨k₁, i', -, from_⟩ := inv.collective b here (by rw [source]; rfl)
    obtain ⟨k₂, j', -, from'⟩ := inv.collective b' here' (by rw [source']; rfl)
    have call := from_.source
    have call' := from'.source
    rw [source, Source.own.injEq, ← Fin.ext_iff] at call
    rw [source', Source.own.injEq, ← Fin.ext_iff] at call'
    obtain ⟨rfl, rfl⟩ := call.resolve_left fun never => by cases never
    obtain ⟨rfl, rfl⟩ := call'.resolve_left fun never => by cases never
    rcases from_.same from' with ⟨never, -⟩ | ⟨-, -, -, -, found⟩
    · rw [source] at never
      cases never
    · exact found

/-- Two compute cores and a DM core, and the upper half of the address space as L3. -/
def trio : System where
  toConfig := Config.small 3
  cluster := 0
  edram := 0x80010004
  l3EndAddr := 0x100000000
  harts := by decide
  l3End_le := by decide

def trioProgram : List Request :=
  [⟨.clusterLocal, 12, 1, by decide⟩, ⟨.computeCoreLocal, 8, 16, by decide⟩, ⟨.l3, 4, 64, by decide⟩]

def trioSchedule : List (Label trio) :=
  let calls (i : Nat) (core : i < 3) : Label trio := .collective ⟨i, core⟩
  [calls 0 (by decide), calls 0 (by decide), calls 1 (by decide), .l3Alloc 0, calls 1 (by decide),
    calls 2 (by decide), calls 0 (by decide)]

def trioState : State trio :=
  ((cores trio trioProgram).run (start trio) trioSchedule).getD (start trio)

theorem blocks_apart_trio : trioState.blocks.map (fun b => (b.source, b.addr)) =
      [(.shared 2, 0x80010040), (.shared 0, 0x10000000), (.own 1 1, 0x10000018),
        (.single 3, 0x80010008), (.shared 0, 0x10000000), (.own 1 0, 0x10000010),
        (.shared 0, 0x10000000)] ∧
    ∀ b ∈ trioState.blocks, ∀ b' ∈ trioState.blocks, b.memory = b'.memory → b.source ≠ b'.source →
      Disjoint b.bytes b'.bytes :=
  have reached : (cores trio trioProgram).Reaches (Admits trio trioProgram) (start trio) trioState :=
    (cores trio trioProgram).reaches_run trioSchedule (by decide) rfl
  ⟨by decide, (blocks_apart trio trioProgram reached).2.1⟩

/-- The blocks after a schedule of calls that are all possible. -/
def blocksAfter (program : List Request) (schedule : List (Label trio)) : List Block :=
  (((cores trio program).run (start trio) schedule).map State.blocks).getD []

/-- Both generations start at the base, the first one checks no bounds, and the product
and the alignment of the second wrap around. -/
theorem blocks_overlap :
    (∃ b ∈ blocksAfter trioProgram [.l1Alloc 8, .collective ⟨0, by decide⟩],
      ∃ b' ∈ blocksAfter trioProgram [.l1Alloc 8, .collective ⟨0, by decide⟩],
        b.memory = b'.memory ∧ b.source ≠ b'.source ∧ ¬Disjoint b.bytes b'.bytes) ∧
      (∃ b ∈ blocksAfter [] [.l3Alloc 8], b.end_.toNat < b.addr.toNat + b.size.toNat) ∧
      (∃ b ∈ blocksAfter [] [.l1Alloc 0x20008], b.end_.toNat < b.addr.toNat + b.size.toNat) ∧
      (∃ b ∈ blocksAfter [⟨.computeCoreLocal, 0x80000000, 1, by decide⟩] [.collective ⟨0, by decide⟩],
        b.end_.toNat < b.addr.toNat + b.size.toNat) ∧
      ∃ b ∈ blocksAfter [⟨.l3, 8, 0x80000000, by decide⟩] [.collective ⟨0, by decide⟩],
        b.addr.toNat < b.base.toNat := by
  refine ⟨?_, by decide, by decide, by decide, by decide⟩
  have old : (⟨.l1, .single 0, 0x10000000, 8, 8, 0x10000000, 0x10020000⟩ : Block) ∈
      blocksAfter trioProgram [.l1Alloc 8, .collective ⟨0, by decide⟩] := by decide
  have new : (⟨.l1, .shared 0, 0x10000000, 12, 1, 0x10000000, 0x1001f360⟩ : Block) ∈
      blocksAfter trioProgram [.l1Alloc 8, .collective ⟨0, by decide⟩] := by decide
  refine ⟨_, old, _, new, rfl, by decide, fun apart => ?_⟩
  have both := Set.disjoint_left.mp apart
  exact @both 0x10000000 ⟨by decide, by decide⟩ ⟨by decide, by decide⟩

end SnitchCluster.Runtime.Alloc
