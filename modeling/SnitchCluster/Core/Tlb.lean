/-
# Core.Tlb -- the level-zero translation buffers

`snitch_l0_tlb`: a few fully associative entries in front of the page-table
walker.  A hit answers in the cycle of the request; a miss raises a refill
request two registers later, and the walker's answer replaces the entries in
turn.

The access check is the source's own.  It asks for the read permission of
accesses that are not reads (`pte.flags.r & ~read_i | read_i`), and its level
terms hold of no access in machine mode.
-/
import Mathlib.Data.List.FinRange
import SnitchCluster.Core.Package

namespace SnitchCluster.Core

/-- `va_t`: the two virtual page numbers, `vpn1` above `vpn0`. -/
abbrev Va := BitVec 20

def Va.vpn1 (va : Va) : BitVec 10 := va.extractLsb' 10 10
def Va.vpn0 (va : Va) : BitVec 10 := va.extractLsb' 0 10

/-- `pte_flags_t`. -/
structure PteFlags where
  d : Bool := false
  a : Bool := false
  u : Bool := false
  x : Bool := false
  w : Bool := false
  r : Bool := false
  deriving DecidableEq, Repr

/-- `l0_pte_t`. -/
structure Pte (ppn : Nat) where
  pa : BitVec ppn := 0
  flags : PteFlags := {}
  deriving DecidableEq, Repr

/-- `tag_t`. -/
structure TlbTag where
  va : Va := 0
  is4mega : Bool := false
  deriving DecidableEq, Repr

/-- The request of one cycle and the answer of the refill port. -/
structure TlbPort (ppn : Nat) where
  flush : Bool
  privLvl : PrivLvl
  valid : Bool
  va : Va
  read : Bool
  write : Bool
  execute : Bool
  refillReady : Bool
  refillPte : Pte ppn
  refill4mega : Bool

/-- The registers; `evict` is the entry the next refill replaces. -/
structure Tlb (ppn entries : Nat) where
  tagValid : Fin entries → Bool := fun _ => false
  tag : Fin entries → TlbTag := fun _ => {}
  pte : Fin entries → Pte ppn := fun _ => {}
  miss : Bool := false
  refill : Bool := false
  evict : Nat := 0

namespace Tlb

variable {ppn entries : Nat} (t : Tlb ppn entries) (p : TlbPort ppn)

/-- `hit[i]`. -/
def hit (va : Va) (e : Fin entries) : Bool :=
  t.tagValid e && (va.vpn1 == (t.tag e).va.vpn1 &&
    ((t.tag e).is4mega || va.vpn0 == (t.tag e).va.vpn0))

/-- `ready_o`. -/
def ready (va : Va) : Bool := (List.finRange entries).any fun e => t.hit va e

def is4mega (va : Va) : Bool :=
  (List.finRange entries).any fun e => (t.tag e).is4mega && t.hit va e

/-- One flag of `pte`, the disjunction over all hitting entries. -/
def flag (va : Va) (f : PteFlags → Bool) : Bool :=
  (List.finRange entries).any fun e => f (t.pte e).flags && t.hit va e

/-- `pte.pa`, the disjunction over all hitting entries. -/
def hitPa (va : Va) : BitVec ppn :=
  (List.finRange entries).foldl (fun pa e => if t.hit va e then pa ||| (t.pte e).pa else pa) 0

def accessAllowed : Bool :=
  let f := t.flag p.va
  (f PteFlags.x && p.execute || !p.execute) &&
  (f PteFlags.w && p.write || !p.write) &&
  (f PteFlags.r && !p.read || p.read) &&
  f PteFlags.a &&
  (f PteFlags.d && p.write || !p.write) &&
  (f PteFlags.u && p.privLvl == PrivLvlU || p.privLvl == PrivLvlS) &&
  (!f PteFlags.u && p.privLvl == PrivLvlS || p.privLvl == PrivLvlU)

/-- `page_fault_o`. -/
def pageFault : Bool := !t.accessAllowed p

/-- `pa_o`: a four-mega page takes the lower page number from the address. -/
def pa (va : Va) : BitVec ppn :=
  let low : BitVec ppn := if t.is4mega va then (BitVec.allOnes 10).setWidth ppn else 0
  (t.hitPa va &&& ~~~low) ||| (va.vpn0.setWidth ppn &&& low)

/-- `valid_o`: the request to the walker. -/
def refillValid : Bool := t.miss && t.refill

def next : Tlb ppn entries :=
  let fire := t.refillValid && p.refillReady
  let bumped := if fire then t.evict + 1 else t.evict
  { tagValid := fun e => if p.flush then false else (fire && e.val == t.evict) || t.tagValid e
    tag := fun e => if fire && e.val == t.evict then ⟨p.va, p.refill4mega⟩ else t.tag e
    pte := fun e => if fire && e.val == t.evict then p.refillPte else t.pte e
    miss := p.valid && !t.ready p.va
    refill := !fire
    evict := if entries > 1 then (if bumped = entries - 1 then 0 else bumped) else 0 }

end Tlb

end SnitchCluster.Core
