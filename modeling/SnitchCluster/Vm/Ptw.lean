/-
# Vm.Ptw -- the page-table walker

`snitch_ptw`: a request is looked up in the root table, and a pointer found there in the
table it points to.  The result register is loaded with every response of the memory, and
with nothing else.

`sv32` is the walk as the instruction set has it.  The walker differs from it in two ways.
The check for a pointer at the last level comes after the response, so that its clearing
of the access bit never reaches the register.  And with entries of eight bytes the index
of an entry does not fit a page offset, so that its upper bit is lost.  `walks_iff` says
that these two are all.
-/
import Mathlib.Algebra.Group.Nat.Defs
import SnitchCluster.Core.Tlb
import SnitchCluster.Theory.Clocked
import SnitchCluster.Theory.Supply

namespace SnitchCluster.Vm

open Theory
open SnitchCluster.Core

/-! ## Entries -/

/-- `PTESize`: more than 34 address bits take entries of eight bytes. -/
def PTESize (ppn : Nat) : Nat := if ppn + PageShift > 34 then 8 else 4

def PTEAddrOffset (ppn : Nat) : Nat := if ppn + PageShift > 34 then 3 else 2

/-- The address of a byte; a physical page number has `ppn` bits. -/
abbrev Addr (ppn : Nat) := BitVec (ppn + PageShift)

/-- `data_rsp_i.p`. -/
structure MemRsp (ppn : Nat) where
  data : BitVec (8 * PTESize ppn)
  error : Bool

/-- `pte_sv32_t`, less the bits nothing reads. -/
structure PteSv32 (ppn : Nat) where
  pa : BitVec ppn
  d : Bool
  a : Bool
  u : Bool
  x : Bool
  w : Bool
  r : Bool
  v : Bool
  deriving DecidableEq

/-- `pte_sv32_t'(data_rsp_i.p.data[$size(pte_sv32_t)-1:0])`. -/
def MemRsp.pte {ppn : Nat} (p : MemRsp ppn) : PteSv32 ppn where
  pa := p.data.extractLsb' 10 ppn
  d := p.data.getLsbD 7
  a := p.data.getLsbD 6
  u := p.data.getLsbD 4
  x := p.data.getLsbD 3
  w := p.data.getLsbD 2
  r := p.data.getLsbD 1
  v := p.data.getLsbD 0

namespace PteSv32

variable {ppn : Nat} (pte : PteSv32 ppn)

/-- `pa.ppn0`. -/
def ppn0 : BitVec 10 := pte.pa.extractLsb' 0 10

/-- `pte.v == 0 || (pte.r == 0 && pte.w == 1)`. -/
def invalid : Bool := !pte.v || (!pte.r && pte.w)

/-- `pte.r == 1 || pte.x == 1`. -/
def leaf : Bool := pte.r || pte.x

/-- The entry of the translation buffers. -/
def unpack : Pte ppn := ⟨pte.pa, ⟨pte.d, pte.a, pte.u, pte.x, pte.w, pte.r⟩⟩

end PteSv32

/-- `pte_d.flags.a = '0`. -/
def clearA {ppn : Nat} (pte : Pte ppn) : Pte ppn := { pte with flags.a := false }

/-! ## The walk of the instruction set -/

/-- What becomes of a walk: a fault, or a page, a superpage or not. -/
inductive Walk (ppn : Nat) where
  | fault
  | page (pte : PteSv32 ppn) (mega : Bool)

/-- The address of the entry `vpn` in the table on page `a`. -/
def entryAddr {ppn : Nat} (a : BitVec ppn) (vpn : BitVec 10) : Addr ppn :=
  (a.setWidth _ <<< PageShift) + (vpn.setWidth _ <<< PTEAddrOffset ppn)

/-- The walk through the tables from page `a`, one virtual page number a level: the
addresses it reads and what becomes of it. -/
def sv32 {ppn : Nat} (mem : Addr ppn → MemRsp ppn) :
    List (BitVec 10) → BitVec ppn → List (Addr ppn) × Walk ppn
  -- a pointer at the last level
  | [], _ => ([], .fault)
  | vpn :: vpns, a =>
    let e := mem (entryAddr a vpn)
    if e.error || e.pte.invalid then ([entryAddr a vpn], .fault)
    else if e.pte.leaf then
      -- a superpage is aligned
      ([entryAddr a vpn], if vpns ≠ [] ∧ e.pte.ppn0 ≠ 0 then .fault
        else .page e.pte (decide (vpns ≠ [])))
    else
      let (reads, walk) := sv32 mem vpns e.pte.pa
      (entryAddr a vpn :: reads, walk)

/-! ## The walker -/

/-- `state_e`. -/
inductive PtwState where
  | idle | lookupPTE | waitPTE | returnPTE
  deriving DecidableEq, Repr

structure Ptw (ppn : Nat) where
  state : PtwState := .idle
  pte : Pte ppn := {}
  is4mega : Bool := false
  lvl : BitVec 2 := 0

/-- The inputs of a cycle: the request and the memory. -/
structure PtwIn (ppn : Nat) where
  ppn_i : BitVec ppn
  valid : Bool
  va : Va
  qReady : Bool
  pValid : Bool
  p : MemRsp ppn

namespace Ptw

variable {ppn : Nat} (s : Ptw ppn) (i : PtwIn ppn)

/-- `page_table_index`: as wide as a page offset. -/
def pageTableIndex (ppn : Nat) (vpn : BitVec 10) : BitVec PageShift :=
  (vpn ++ (0 : BitVec (PTEAddrOffset ppn))).setWidth PageShift

/-- `data_req_o.q.addr`. -/
def qAddr : Addr ppn :=
  if s.state = .lookupPTE ∧ s.lvl < 2 then s.pte.pa ++ pageTableIndex ppn i.va.vpn0
  else i.ppn_i ++ pageTableIndex ppn i.va.vpn1

/-- `data_req_o.q_valid`. -/
def qValid : Bool :=
  match s.state with
  | .idle => i.valid
  | .lookupPTE => decide (s.lvl < 2)
  | _ => false

/-- `data_req_o.p_ready`. -/
def pReady : Bool := true

def ready : Bool := s.state == .returnPTE

/-- `pte_d`. -/
def pteD : Pte ppn :=
  let pte := i.p.pte
  match s.state with
  | .lookupPTE => if s.lvl < 2 then pte.unpack else clearA pte.unpack
  | .waitPTE =>
    if i.pValid then
      if i.p.error || pte.invalid || (pte.leaf && (s.lvl < 1 && pte.ppn0 != 0)) then
        clearA pte.unpack
      else pte.unpack
    else pte.unpack
  | _ => pte.unpack

def is4megaD : Bool :=
  match s.state with
  | .waitPTE => i.pValid && (!i.p.pte.invalid && i.p.pte.leaf && s.lvl < 1)
  | _ => s.is4mega

def lvlD : BitVec 2 :=
  match s.state with
  | .idle => 0
  | .waitPTE => if i.pValid then s.lvl + 1 else s.lvl
  | _ => s.lvl

def stateD : PtwState :=
  match s.state with
  | .idle => if i.valid && i.qReady then .waitPTE else .idle
  | .lookupPTE =>
    if s.lvl < 2 then if i.qReady then .waitPTE else .lookupPTE else .returnPTE
  | .waitPTE =>
    if i.pValid then
      if i.p.error || i.p.pte.invalid || i.p.pte.leaf then .returnPTE else .lookupPTE
    else .waitPTE
  | .returnPTE => .idle

def next : Ptw ppn where
  state := s.stateD i
  pte := if i.pValid && pReady then s.pteD i else s.pte
  is4mega := s.is4megaD i
  lvl := s.lvlD i

/-! ## Runs -/

/-- What a cycle shows: the address the memory takes, its response, and the result. -/
structure Obs (ppn : Nat) where
  read : Option (Addr ppn)
  answer : Option (MemRsp ppn)
  result : Option (Pte ppn × Bool)

def machine (ppn : Nat) : Machine (Ptw ppn) (PtwIn ppn) (Obs ppn) where
  obs s i :=
    { read := if s.qValid i && i.qReady then some (s.qAddr i) else none
      answer := if i.pValid && pReady then some i.p else none
      result := if s.ready then some (s.pte, s.is4mega) else none }
  next := next

section Past

variable (past : List (Obs ppn))

def reads : List (Addr ppn) := past.filterMap Obs.read

def answers : List (MemRsp ppn) := past.filterMap Obs.answer

def results : List (Pte ppn × Bool) := past.filterMap Obs.result

end Past

section Endless

variable (mem : Addr ppn → MemRsp ppn) (root : BitVec ppn) (va : Va) (s : Ptw ppn)
  (u : Nat → PtwIn ppn)

abbrev past (n : Nat) : List (Obs ppn) := (machine ppn).history s u n

abbrev stateOf (n : Nat) : Ptw ppn := (machine ppn).stateAt s u n

/-- The addresses read and not yet answered. -/
abbrev pending (n : Nat) : List (Addr ppn) :=
  Supply.unanswered (reads (past s u n)) (answers (past s u n))

/-- The request is held until its result, the memory answers what it was asked, in a
later cycle, and both the memory's ready and its answers come. -/
structure Served : Prop where
  held : ∀ n, results (past s u n) = [] →
    (u n).valid = true ∧ (u n).ppn_i = root ∧ (u n).va = va
  contents : ∀ n, (u n).pValid = true → ∃ a, (pending s u n).head? = some a ∧ (u n).p = mem a
  taken : ∀ n, ∃ m, n ≤ m ∧ (u m).qReady = true
  answered : ∀ n, pending s u n ≠ [] → ∃ m, n ≤ m ∧ (u m).pValid = true

/-- What the buffers get for a walk: a fault clears the access bit, a page comes as its
entry has it. -/
def Matches (out : Walk ppn) (pte : Pte ppn) (mega : Bool) : Prop :=
  match out with
  | .fault => pte.flags.a = false
  | .page e superpage => pte = e.unpack ∧ mega = superpage

/-- The first result: the addresses read for it are those of the walk, at most two, it is
what the walk comes to, and the walker is idle again. -/
def Walked : Prop :=
  ∃ n, results (past s u n) = [] ∧ (stateOf s u n).ready = true ∧
    (stateOf s u (n + 1)).state = .idle ∧
    reads (past s u n) = (sv32 mem [va.vpn1, va.vpn0] root).1 ∧
    (reads (past s u n)).length ≤ 2 ∧
    Matches (sv32 mem [va.vpn1, va.vpn0] root).2 (stateOf s u n).pte (stateOf s u n).is4mega

/-- The index of an entry fits a page offset. -/
def fits (ppn : Nat) (vpn : BitVec 10) : Bool := PTEAddrOffset ppn == 2 || !vpn.getLsbD 9

/-- A pointer to the next level. -/
def pointer (p : MemRsp ppn) : Bool := !(p.error || p.pte.invalid || p.pte.leaf)

/-- What a response at a level leaves in the registers. -/
def loaded (lvl : BitVec 2) (p : MemRsp ppn) : Pte ppn :=
  if p.error || p.pte.invalid || (p.pte.leaf && (lvl < 1 && p.pte.ppn0 != 0)) then
    clearA p.pte.unpack
  else p.pte.unpack

def superpage (lvl : BitVec 2) (p : MemRsp ppn) : Bool :=
  !p.pte.invalid && p.pte.leaf && lvl < 1

/-- The reads and the result of the walker. -/
def found : List (Addr ppn) × Pte ppn × Bool :=
  let a := root ++ pageTableIndex ppn va.vpn1
  if pointer (mem a) then
    let b := (mem a).pte.pa ++ pageTableIndex ppn va.vpn0
    ([a, b], loaded 1 (mem b), false)
  else ([a], loaded 0 (mem a), superpage 0 (mem a))

/-- The entry of the root table. -/
def rootEntry : MemRsp ppn := mem (entryAddr root va.vpn1)

/-- The entry of the table the root entry points to. -/
def nextEntry : MemRsp ppn := mem (entryAddr (rootEntry mem root va).pte.pa va.vpn0)

/-- The index into the root table fits, and if the entry is a pointer, so does the index
into the next table, whose entry is not a pointer with the access bit set. -/
def Regular : Prop :=
  fits ppn va.vpn1 = true ∧ (pointer (rootEntry mem root va) = true →
    fits ppn va.vpn0 = true ∧
      (pointer (nextEntry mem root va) = true → (nextEntry mem root va).pte.a = false))

end Endless

theorem superpage_one (e : MemRsp ppn) : superpage 1 e = false := by
  simp [superpage]

/-! ## Addresses -/

theorem toNat_pageTableIndex (vpn : BitVec 10) : (pageTableIndex ppn vpn).toNat =
    vpn.toNat * 2 ^ PTEAddrOffset ppn % 4096 := by
  rw [pageTableIndex, BitVec.toNat_setWidth, BitVec.toNat_append]
  simp [Nat.shiftLeft_eq, PageShift]

theorem toNat_entryAddr (a : BitVec ppn) (vpn : BitVec 10) : (entryAddr a vpn).toNat =
    (a.toNat * 4096 + vpn.toNat * 2 ^ PTEAddrOffset ppn) % (2 ^ ppn * 4096) := by
  have size : 2 ^ (ppn + PageShift) = 2 ^ ppn * 4096 := Nat.pow_add ..
  have page := a.isLt
  have index := vpn.isLt
  have room : 0 < 2 ^ ppn := Nat.two_pow_pos ppn
  rw [entryAddr, BitVec.toNat_add, BitVec.toNat_shiftLeft, BitVec.toNat_shiftLeft,
    BitVec.toNat_setWidth, BitVec.toNat_setWidth, size, Nat.shiftLeft_eq, Nat.shiftLeft_eq,
    Nat.mod_eq_of_lt (show a.toNat < _ by omega), Nat.mod_eq_of_lt (show vpn.toNat < _ by omega)]
  exact (Nat.add_mod _ _ _).symm

/-- An offset beyond the page is another page, or the first one. -/
theorem page_offset {a pages x : Nat} (page : a < pages) (near : x < 8192)
    (several : x < 4096 ∨ 1 < pages) :
    a * 4096 + x % 4096 = (a * 4096 + x) % (pages * 4096) ↔ x < 4096 := by
  by_cases within : x < 4096
  · rw [Nat.mod_eq_of_lt (show a * 4096 + x < pages * 4096 by omega)]
    omega
  · refine iff_of_false ?_ within
    by_cases last : a + 1 = pages
    · have wraps : (a * 4096 + x) % (pages * 4096) = x - 4096 := by
        rw [show a * 4096 + x = (x - 4096) + pages * 4096 by omega, Nat.add_mod_right,
          Nat.mod_eq_of_lt (by omega)]
      omega
    · rw [Nat.mod_eq_of_lt (show a * 4096 + x < pages * 4096 by omega)]
      omega

/-- **The walker reads the entry it means exactly when its index fits.** -/
theorem append_eq_entryAddr (a : BitVec ppn) (vpn : BitVec 10) :
    a ++ pageTableIndex ppn vpn = entryAddr a vpn ↔ fits ppn vpn = true := by
  have left : (a ++ pageTableIndex ppn vpn).toNat =
      a.toNat * 4096 + vpn.toNat * 2 ^ PTEAddrOffset ppn % 4096 := by
    have low := (pageTableIndex ppn vpn).isLt
    rw [BitVec.toNat_append, ← Nat.shiftLeft_add_eq_or_of_lt low, toNat_pageTableIndex,
      Nat.shiftLeft_eq]
    rfl
  have index := vpn.isLt
  have upper : vpn.getLsbD 9 = decide (512 ≤ vpn.toNat) := BitVec.msb_eq_decide vpn
  rw [← BitVec.toNat_inj, left, toNat_entryAddr, fits, upper]
  by_cases wide : ppn + PageShift > 34
  · have offset : PTEAddrOffset ppn = 3 := if_pos wide
    have several : 2 ^ 1 ≤ 2 ^ ppn := Nat.pow_le_pow_right (by decide) (by
      have shift : PageShift = 12 := rfl
      omega)
    rw [offset, page_offset a.isLt (by omega) (.inr (by omega))]
    simp
    omega
  · have offset : PTEAddrOffset ppn = 2 := if_neg wide
    rw [offset, page_offset a.isLt (by omega) (.inl (by omega))]
    simp
    omega

/-! ## One cycle -/

section Cycle

variable {mem : Addr ppn → MemRsp ppn} {root : BitVec ppn} {va : Va} {s : Ptw ppn}
  {u : Nat → PtwIn ppn} (served : Served mem root va s u)

variable (s u) in
/-- Where the walker stands, before its first result. -/
structure At (n : Nat) (st : PtwState) (rs : List (Addr ppn)) (es : List (MemRsp ppn)) :
    Prop where
  state : (stateOf s u n).state = st
  reads : reads (past s u n) = rs
  answers : answers (past s u n) = es
  results : results (past s u n) = []

theorem reads_succ (n : Nat) : reads (past s u (n + 1)) = reads (past s u n) ++
    if (stateOf s u n).qValid (u n) && (u n).qReady then [(stateOf s u n).qAddr (u n)] else [] := by
  show reads (past s u n ++ [_]) = _
  exact filterMap_shown (by rfl) _

theorem answers_succ (n : Nat) : answers (past s u (n + 1)) = answers (past s u n) ++
    if (u n).pValid then [(u n).p] else [] := by
  show answers (past s u n ++ [_]) = _
  refine filterMap_shown ?_ _
  show (if (u n).pValid && true then _ else none) = _
  rw [Bool.and_true]

theorem results_succ (n : Nat) : results (past s u (n + 1)) = results (past s u n) ++
    if (stateOf s u n).ready then [((stateOf s u n).pte, (stateOf s u n).is4mega)] else [] := by
  show results (past s u n ++ [_]) = _
  exact filterMap_shown (by rfl) _

/-- A cycle of the walker before its first result. -/
theorem At.succ {n : Nat} {st : PtwState} {rs : List (Addr ppn)} {es : List (MemRsp ppn)}
    (here : At s u n st rs es) (unready : st ≠ .returnPTE) :
    At s u (n + 1) ((stateOf s u n).stateD (u n))
      (rs ++ if (stateOf s u n).qValid (u n) && (u n).qReady then
        [(stateOf s u n).qAddr (u n)] else [])
      (es ++ if (u n).pValid then [(u n).p] else []) where
  state := rfl
  reads := by rw [reads_succ, here.reads]
  answers := by rw [answers_succ, here.answers]
  results := by
    have quiet : (stateOf s u n).ready = false := by
      rw [ready, here.state, beq_eq_false_iff_ne]
      exact unready
    rw [results_succ, here.results, quiet]
    rfl

include served

/-- With nothing pending the memory does not answer. -/
theorem At.silent {n : Nat} {st : PtwState} {rs : List (Addr ppn)} {es : List (MemRsp ppn)}
    (here : At s u n st rs es) (none : rs.length ≤ es.length) : (u n).pValid = false := by
  rw [← Bool.not_eq_true]
  intro answers
  obtain ⟨a, first, -⟩ := served.contents n answers
  rw [pending, here.reads, here.answers, Supply.unanswered, List.drop_eq_nil_iff.mpr none] at first
  exact absurd first (by simp)

/-- What the memory answers. -/
theorem At.told {n : Nat} {st : PtwState} {rs : List (Addr ppn)} {es : List (MemRsp ppn)}
    {a : Addr ppn} (here : At s u n st (rs ++ [a]) es) (one : rs.length = es.length)
    (answers : (u n).pValid = true) : (u n).p = mem a := by
  obtain ⟨b, first, told⟩ := served.contents n answers
  rw [pending, here.reads, here.answers, Supply.unanswered, ← one, List.drop_left] at first
  obtain rfl := Option.some.inj first
  exact told

/-- The first lookup. -/
theorem asks {n : Nat} (here : At s u n .idle [] []) :
    ∃ m, n ≤ m ∧ At s u m .waitPTE [root ++ pageTableIndex ppn va.vpn1] [] ∧
      (stateOf s u m).lvl = 0 := by
  apply Machine.exists_after (fun m => At s u m .idle [] [])
    (fun m => At s u m .waitPTE [root ++ pageTableIndex ppn va.vpn1] [] ∧
      (stateOf s u m).lvl = 0) (fun m => (u m).qReady = true) here _ _ (served.taken n)
  · intro m _ idle refused
    rw [Bool.not_eq_true] at refused
    have next := idle.succ (by decide)
    rw [idle.silent served (Nat.le_refl _), refused, stateD, idle.state, refused] at next
    simpa using next
  · intro m _ idle taken
    obtain ⟨valid, base, address⟩ := served.held m idle.results
    have next := idle.succ (by decide)
    have level : (stateOf s u (m + 1)).lvl = 0 := by
      show (stateOf s u m).lvlD (u m) = 0
      rw [lvlD, idle.state]
    rw [idle.silent served (Nat.le_refl _), qValid, qAddr, stateD, idle.state, valid, taken, base,
      address] at next
    exact ⟨by simpa using next, level⟩

/-- The lookup in the next table. -/
theorem looks {n : Nat} {a : Addr ppn} {e : MemRsp ppn} {pte : Pte ppn}
    (here : At s u n .lookupPTE [a] [e]) (level : (stateOf s u n).lvl = 1)
    (register : (stateOf s u n).pte = pte) :
    ∃ m, n ≤ m ∧ At s u m .waitPTE [a, pte.pa ++ pageTableIndex ppn va.vpn0] [e] ∧
      (stateOf s u m).lvl = 1 := by
  apply Machine.exists_after (fun m => At s u m .lookupPTE [a] [e] ∧
      (stateOf s u m).lvl = 1 ∧ (stateOf s u m).pte = pte)
    (fun m => At s u m .waitPTE [a, pte.pa ++ pageTableIndex ppn va.vpn0] [e] ∧
      (stateOf s u m).lvl = 1) (fun m => (u m).qReady = true) ⟨here, level, register⟩ _ _
    (served.taken n)
  all_goals
    intro m _ looking event
    obtain ⟨looking, one, kept⟩ := looking
    have silent := looking.silent served (Nat.le_refl _)
    have next := looking.succ (by decide)
    have low : (1 : BitVec 2) < 2 := by decide
    have level : (stateOf s u (m + 1)).lvl = 1 := by
      show (stateOf s u m).lvlD (u m) = 1
      rw [lvlD, looking.state, one]
    have register : (stateOf s u (m + 1)).pte = pte := by
      show (if (u m).pValid && true then _ else _) = _
      rw [silent]
      exact kept
    rw [silent, qValid, qAddr, stateD, looking.state, one, kept,
      (served.held m looking.results).2.2] at next
  · rw [Bool.not_eq_true] at event
    rw [event] at next
    exact ⟨by simpa [low] using next, level, register⟩
  · rw [event] at next
    exact ⟨by simpa [low] using next, level⟩

variable (s u mem) in
/-- The word at `a` was loaded at level `k`, which is done. -/
def Loaded (m : Nat) (a : Addr ppn) (k : BitVec 2) : Prop :=
  (stateOf s u m).lvl = k + 1 ∧ (stateOf s u m).pte = loaded k (mem a) ∧
    (stateOf s u m).is4mega = superpage k (mem a)

/-- The answer. -/
theorem told {n : Nat} {rs : List (Addr ppn)} {es : List (MemRsp ppn)} {a : Addr ppn}
    {k : BitVec 2} (one : rs.length = es.length) (here : At s u n .waitPTE (rs ++ [a]) es)
    (level : (stateOf s u n).lvl = k) :
    ∃ m, n ≤ m ∧ At s u m (if pointer (mem a) then .lookupPTE else .returnPTE) (rs ++ [a])
        (es ++ [mem a]) ∧ Loaded mem s u m a k := by
  have owed : pending s u n ≠ [] := by
    rw [pending, here.reads, here.answers, Supply.unanswered, ← one, List.drop_left]
    exact List.cons_ne_nil _ _
  apply Machine.exists_after (fun m => At s u m .waitPTE (rs ++ [a]) es ∧ (stateOf s u m).lvl = k)
    (fun m => At s u m (if pointer (mem a) then .lookupPTE else .returnPTE) (rs ++ [a])
        (es ++ [mem a]) ∧ Loaded mem s u m a k)
    (fun m => (u m).pValid = true) ⟨here, level⟩ _ _ (served.answered n owed)
  · intro m _ waiting quiet
    obtain ⟨waiting, level⟩ := waiting
    rw [Bool.not_eq_true] at quiet
    have next := waiting.succ (by decide)
    have same : (stateOf s u (m + 1)).lvl = k := by
      show (stateOf s u m).lvlD (u m) = k
      rw [lvlD, waiting.state, quiet, level]
      rfl
    rw [qValid, stateD, waiting.state, quiet] at next
    exact ⟨by simpa using next, same⟩
  · intro m _ waiting answers
    obtain ⟨waiting, level⟩ := waiting
    have told := waiting.told served one answers
    have next := waiting.succ (by decide)
    refine ⟨?_, ?_, ?_, ?_⟩
    · rw [qValid, stateD, waiting.state, answers, told] at next
      rw [pointer]
      cases found : (mem a).error || (mem a).pte.invalid || (mem a).pte.leaf with
      | false =>
        rw [found] at next
        simpa using next
      | true =>
        rw [found] at next
        simpa using next
    · show (stateOf s u m).lvlD (u m) = k + 1
      rw [lvlD, waiting.state, answers, level]
      rfl
    · show (if (u m).pValid && true then (stateOf s u m).pteD (u m) else _) = _
      rw [pteD, waiting.state, answers, told, level]
      rfl
    · show (stateOf s u m).is4megaD (u m) = _
      rw [is4megaD, waiting.state, answers, told, level]
      rfl

/-- A pointer at the last level is returned as it is. -/
theorem drops {n : Nat} {rs : List (Addr ppn)} {es : List (MemRsp ppn)}
    (here : At s u n .lookupPTE rs es) (size : rs.length ≤ es.length)
    (level : (stateOf s u n).lvl = 2) :
    At s u (n + 1) .returnPTE rs es ∧ (stateOf s u (n + 1)).pte = (stateOf s u n).pte ∧
      (stateOf s u (n + 1)).is4mega = (stateOf s u n).is4mega := by
  have silent := here.silent served size
  have next := here.succ (by decide)
  have deep : ¬(2 : BitVec 2) < 2 := by decide
  rw [silent, qValid, stateD, here.state, level] at next
  refine ⟨by simpa [deep] using next, ?_, ?_⟩
  · show (if (u n).pValid && true then _ else _) = _
    rw [silent]
    rfl
  · show (stateOf s u n).is4megaD (u n) = _
    rw [is4megaD, here.state]

omit served in
@[simp] theorem loaded_pa (lvl : BitVec 2) (p : MemRsp ppn) : (loaded lvl p).pa = p.pte.pa := by
  unfold loaded
  split
  · rfl
  · rfl

/-- **What the walker returns.** -/
theorem returns (idle : s.state = .idle) : ∃ n, At s u n .returnPTE (found mem root va).1
      (answers (past s u n)) ∧
    ((stateOf s u n).pte, (stateOf s u n).is4mega) = (found mem root va).2 := by
  have start : At s u 0 .idle [] [] := ⟨idle, rfl, rfl, rfl⟩
  obtain ⟨n₁, -, waiting, level⟩ := asks served start
  have waiting' : At s u n₁ .waitPTE ([] ++ [root ++ pageTableIndex ppn va.vpn1]) [] := waiting
  obtain ⟨n₂, -, next, level, register, mega⟩ := told served rfl waiting' level
  rw [found]
  cases ptr : pointer (mem (root ++ pageTableIndex ppn va.vpn1)) with
  | false =>
    rw [ptr] at next
    exact ⟨n₂, ⟨next.state, next.reads, rfl, next.results⟩, by rw [register, mega]; rfl⟩
  | true =>
    rw [ptr] at next
    obtain ⟨n₃, -, waiting, level⟩ := looks served next level register
    rw [loaded_pa] at waiting
    have waiting' : At s u n₃ .waitPTE ([root ++ pageTableIndex ppn va.vpn1] ++
        [(mem (root ++ pageTableIndex ppn va.vpn1)).pte.pa ++ pageTableIndex ppn va.vpn0])
        [mem (root ++ pageTableIndex ppn va.vpn1)] := waiting
    obtain ⟨n₄, -, next, level, register, mega⟩ := told served rfl waiting' level
    have single : superpage 1 (mem ((mem (root ++ pageTableIndex ppn va.vpn1)).pte.pa ++
        pageTableIndex ppn va.vpn0)) = false := superpage_one _
    cases last : pointer (mem ((mem (root ++ pageTableIndex ppn va.vpn1)).pte.pa ++
        pageTableIndex ppn va.vpn0)) with
    | false =>
      rw [last] at next
      exact ⟨n₄, ⟨next.state, next.reads, rfl, next.results⟩, by rw [register, mega, single]; rfl⟩
    | true =>
      rw [last] at next
      obtain ⟨next, kept, same⟩ := drops served next (Nat.le_refl _) level
      exact ⟨n₄ + 1, ⟨next.state, next.reads, rfl, next.results⟩, by
        rw [kept, same, register, mega, single]; rfl⟩

omit served in
/-- Results are not lost. -/
theorem results_stay {n : Nat} (some : results (past s u n) ≠ []) (d : Nat) :
    results (past s u (n + d)) ≠ [] := by
  induction d with
  | zero => exact some
  | succ d ih =>
    rw [← Nat.add_assoc, results_succ]
    intro none
    exact ih (List.append_eq_nil_iff.mp none).1

omit served in
/-- The first result comes once. -/
theorem first_unique {n m : Nat} (left : results (past s u n) = [])
    (right : results (past s u m) = []) (ready : (stateOf s u n).ready = true) : m ≤ n := by
  by_contra later
  have come : results (past s u (n + 1)) ≠ [] := by
    rw [results_succ, ready, left]
    exact List.cons_ne_nil _ _
  obtain ⟨d, rfl⟩ := Nat.exists_eq_add_of_le (show n + 1 ≤ m by omega)
  exact results_stay come d right

/-- The walker does what the walk does exactly when its reads and its result agree. -/
theorem walked_iff (idle : s.state = .idle) : Walked mem root va s u ↔
    (found mem root va).1 = (sv32 mem [va.vpn1, va.vpn0] root).1 ∧
      Matches (sv32 mem [va.vpn1, va.vpn0] root).2 (found mem root va).2.1
        (found mem root va).2.2 := by
  obtain ⟨n, here, result⟩ := returns served idle
  have ready : (stateOf s u n).ready = true := by
    rw [Ptw.ready, here.state]
    rfl
  have after : (stateOf s u (n + 1)).state = .idle := by
    show (stateOf s u n).stateD (u n) = .idle
    rw [stateD, here.state]
  have few : (found mem root va).1.length ≤ 2 := by
    rw [found]
    split
    · exact Nat.le_refl 2
    · exact Nat.le_succ 1
  constructor
  · rintro ⟨m, first, shown, -, reads, -, out⟩
    obtain rfl : m = n :=
      Nat.le_antisymm (first_unique here.results first ready) (first_unique first here.results shown)
    rw [← here.reads, ← result]
    exact ⟨reads, out⟩
  · rintro ⟨reads, out⟩
    rw [← result] at out
    exact ⟨n, here.results, ready, after, here.reads.trans reads, by rw [here.reads]; exact few, out⟩

end Cycle

/-! ## The walker against the walk -/

section Agree

variable {mem : Addr ppn → MemRsp ppn} {root : BitVec ppn} {va : Va}

/-- The first read of a walk. -/
theorem head_sv32 (vpn : BitVec 10) (vpns : List (BitVec 10)) (a : BitVec ppn) :
    (sv32 mem (vpn :: vpns) a).1.head? = some (entryAddr a vpn) := by
  rw [sv32]
  split
  · rfl
  · split <;> rfl

theorem sv32_pointer {vpn : BitVec 10} {a : BitVec ppn}
    (ptr : pointer (mem (entryAddr a vpn)) = true) (vpns : List (BitVec 10)) :
    sv32 mem (vpn :: vpns) a =
      (entryAddr a vpn :: (sv32 mem vpns (mem (entryAddr a vpn)).pte.pa).1,
        (sv32 mem vpns (mem (entryAddr a vpn)).pte.pa).2) := by
  simp only [pointer, Bool.not_eq_true', Bool.or_eq_false_iff] at ptr
  obtain ⟨⟨noError, valid⟩, inner⟩ := ptr
  rw [sv32]
  simp only [noError, valid, inner, Bool.or_self, Bool.false_eq_true, if_false]

/-- At an entry that is no pointer the register agrees with the walk. -/
theorem matches_of_end {vpn : BitVec 10} {a : BitVec ppn} {vpns : List (BitVec 10)}
    {lvl : BitVec 2} (level : lvl < 1 ↔ vpns ≠ [])
    (ends : pointer (mem (entryAddr a vpn)) = false) :
    (sv32 mem (vpn :: vpns) a).1 = [entryAddr a vpn] ∧
      Matches (sv32 mem (vpn :: vpns) a).2 (loaded lvl (mem (entryAddr a vpn)))
        (superpage lvl (mem (entryAddr a vpn))) := by
  rw [sv32]
  generalize mem (entryAddr a vpn) = e at ends ⊢
  rw [pointer, Bool.not_eq_false'] at ends
  by_cases bad : (e.error || e.pte.invalid) = true
  · simp [bad, loaded, clearA, Matches]
  · have leaf : e.pte.leaf = true := by
      rw [Bool.or_eq_true] at ends
      exact ends.resolve_left bad
    rw [Bool.not_eq_true, Bool.or_eq_false_iff] at bad
    obtain ⟨noError, valid⟩ := bad
    simp only [noError, valid, leaf, Bool.or_self, Bool.false_eq_true, if_false, if_true, true_and,
      loaded, superpage, Bool.false_or, Bool.true_and, Bool.not_false]
    by_cases upper : vpns ≠ []
    · have low : decide (lvl < 1) = true := decide_eq_true (level.mpr upper)
      by_cases crooked : e.pte.ppn0 ≠ 0
      · have checked : (e.pte.ppn0 != 0) = true := bne_iff_ne.mpr crooked
        rw [if_pos ⟨upper, crooked⟩, low, checked, Bool.true_and, if_pos rfl]
        rfl
      · have checked : (e.pte.ppn0 != 0) = false := by
          rw [bne_eq_false_iff_eq]
          exact not_not.mp crooked
        rw [if_neg fun both => crooked both.2, low, checked, Bool.and_false,
          if_neg Bool.false_ne_true, decide_eq_true upper]
        exact ⟨rfl, rfl⟩
    · have deep : decide (lvl < 1) = false := decide_eq_false fun low => upper (level.mp low)
      rw [if_neg fun both => upper both.1, deep, Bool.false_and, if_neg Bool.false_ne_true,
        decide_eq_false upper]
      exact ⟨rfl, rfl⟩

theorem loaded_of_pointer {lvl : BitVec 2} {e : MemRsp ppn} (ptr : pointer e = true) :
    loaded lvl e = e.pte.unpack := by
  simp only [pointer, Bool.not_eq_true', Bool.or_eq_false_iff] at ptr
  obtain ⟨⟨noError, valid⟩, inner⟩ := ptr
  simp [loaded, noError, valid, inner]

theorem first_level (vpn : BitVec 10) : (0 : BitVec 2) < 1 ↔ [vpn] ≠ [] := by
  simp

theorem last_level : (1 : BitVec 2) < 1 ↔ ([] : List (BitVec 10)) ≠ [] := by
  simp

theorem agrees_iff : ((found mem root va).1 = (sv32 mem [va.vpn1, va.vpn0] root).1 ∧
      Matches (sv32 mem [va.vpn1, va.vpn0] root).2 (found mem root va).2.1
        (found mem root va).2.2) ↔ Regular mem root va := by
  cases first : fits ppn va.vpn1 with
  | false =>
    -- the first read goes astray
    refine iff_of_false ?_ fun regular => ?_
    · rintro ⟨reads, -⟩
      have heads := congrArg List.head? reads
      rw [head_sv32, found] at heads
      have astray : root ++ pageTableIndex ppn va.vpn1 = entryAddr root va.vpn1 := by
        split at heads <;> exact Option.some.inj heads
      rw [append_eq_entryAddr, first] at astray
      contradiction
    · rw [Regular, first] at regular
      exact absurd regular.1 Bool.false_ne_true
  | true =>
    have here : root ++ pageTableIndex ppn va.vpn1 = entryAddr root va.vpn1 :=
      (append_eq_entryAddr _ _).mpr first
    rw [found, here, Regular, first, rootEntry, nextEntry, rootEntry]
    cases ptr : pointer (mem (entryAddr root va.vpn1)) with
    | false =>
      obtain ⟨reads, out⟩ := matches_of_end (first_level va.vpn0) ptr
      simp only [Bool.false_eq_true, if_false]
      exact iff_of_true ⟨reads.symm, out⟩ ⟨trivial, fun other => absurd other (by simp)⟩
    | true =>
      rw [sv32_pointer ptr]
      simp only [if_true, true_and, forall_const]
      generalize (mem (entryAddr root va.vpn1)).pte.pa = a
      cases second : fits ppn va.vpn0 with
      | false =>
        refine iff_of_false ?_ fun regular => absurd regular.1 Bool.false_ne_true
        rintro ⟨reads, -⟩
        have heads := congrArg List.head? (List.cons.inj reads).2
        rw [head_sv32] at heads
        have astray : a ++ pageTableIndex ppn va.vpn0 = entryAddr a va.vpn0 :=
          Option.some.inj heads
        rw [append_eq_entryAddr, second] at astray
        contradiction
      | true =>
        have there : a ++ pageTableIndex ppn va.vpn0 = entryAddr a va.vpn0 :=
          (append_eq_entryAddr _ _).mpr second
        rw [there]
        cases last : pointer (mem (entryAddr a va.vpn0)) with
        | false =>
          obtain ⟨reads, out⟩ := matches_of_end last_level last
          rw [superpage_one] at out
          exact iff_of_true ⟨by rw [reads], out⟩ ⟨rfl, fun other => absurd other (by simp)⟩
        | true =>
          rw [sv32_pointer last, loaded_of_pointer last]
          exact ⟨fun both => ⟨rfl, fun _ => both.2⟩, fun regular => ⟨rfl, regular.2 rfl⟩⟩

end Agree

/-- **The walk of the walker.**  For every contents of the memory, every root, address and
timing: the walker answers after at most two reads, is idle again, and what it hands to
the buffers is what the walk comes to, exactly when every index fits and the last level
holds no pointer with the access bit set. -/
theorem walks_iff {mem : Addr ppn → MemRsp ppn} {root : BitVec ppn} {va : Va} {s : Ptw ppn}
    {u : Nat → PtwIn ppn} (idle : s.state = .idle) (served : Served mem root va s u) :
    Walked mem root va s u ↔ Regular mem root va :=
  (walked_iff served idle).trans agrees_iff

/-! ## Two memories -/

/-- Every entry is the same. -/
def filled (entry : BitVec 32) (_ : Addr 22) : MemRsp 22 where
  data := entry
  error := false

/-- A request is answered in the cycle after it, and there is none after the result, in
cycle `last`. -/
def cycle (entry : BitVec 32) (last : Nat) (n : Nat) : PtwIn 22 where
  ppn_i := 5
  valid := decide (n ≤ last)
  va := 0x00403
  qReady := true
  pValid := decide (n < last) && n % 2 == 1
  p := filled entry 0

/-- With no request an idle walker stays as it is. -/
theorem rests {entry : BitVec 32} {last k : Nat} (later : last < k) {s : Ptw 22}
    (idle : (stateOf s (cycle entry last) k).state = .idle)
    (done : pending s (cycle entry last) k = []) (n : Nat) :
    (stateOf s (cycle entry last) (k + n)).state = .idle ∧
      pending s (cycle entry last) (k + n) = [] := by
  induction n with
  | zero => exact ⟨idle, done⟩
  | succ n ih =>
    obtain ⟨idle, done⟩ := ih
    have unasked : (cycle entry last (k + n)).valid = false := decide_eq_false (by omega)
    have silent : (cycle entry last (k + n)).pValid = false := by
      have late : ¬k + n < last := by omega
      simp [cycle, late]
    constructor
    · show (stateOf s (cycle entry last) (k + n)).stateD (cycle entry last (k + n)) = .idle
      rw [stateD, idle, unasked]
      rfl
    · rw [pending, ← Nat.add_assoc, reads_succ, answers_succ, qValid, idle, unasked, silent]
      simpa using done

/-- A memory that answers until the result, one cycle after it was asked, serves the walk. -/
theorem served_of_rests {entry : BitVec 32} {last : Nat} {s : Ptw 22}
    (result : results (past s (cycle entry last) (last + 1)) ≠ [])
    (asked : ∀ n < last, n % 2 = 1 → pending s (cycle entry last) n ≠ [])
    (idle : (stateOf s (cycle entry last) (last + 1)).state = .idle)
    (done : ∀ n ≤ last + 1, n % 2 = 0 ∨ last ≤ n → pending s (cycle entry last) n = []) :
    Served (filled entry) 5 0x00403 s (cycle entry last) where
  held n first := by
    have early : n ≤ last := by
      by_contra late
      obtain ⟨d, rfl⟩ := Nat.exists_eq_add_of_le (show last + 1 ≤ n by omega)
      exact results_stay result d first
    exact ⟨decide_eq_true early, rfl, rfl⟩
  contents n answers := by
    simp only [cycle, Bool.and_eq_true, decide_eq_true_eq, beq_iff_eq] at answers
    obtain ⟨a, rest, some⟩ := List.exists_cons_of_ne_nil (asked n answers.1 answers.2)
    exact ⟨a, by rw [some]; rfl, rfl⟩
  taken n := ⟨n, Nat.le_refl n, rfl⟩
  answered n owed := by
    by_cases early : n ≤ last + 1
    · by_cases answers : n % 2 = 0 ∨ last ≤ n
      · exact absurd (done n early answers) owed
      · exact ⟨n, Nat.le_refl n, by simp [cycle]; omega⟩
    · obtain ⟨d, rfl⟩ := Nat.exists_eq_add_of_le (show last + 1 ≤ n by omega)
      exact absurd (rests (Nat.lt_succ_self last) idle (done _ (Nat.le_refl _) (by omega)) d).2 owed

/-- A superpage, found in three cycles. -/
theorem served_leaf : Served (filled 0x4f) 5 0x00403 {} (cycle 0x4f 2) := by
  apply served_of_rests
  · decide
  · decide
  · decide
  · decide

theorem walks_iff_superpage : ({} : Ptw 22).state = .idle ∧
    (Walked (filled 0x4f) 5 0x00403 {} (cycle 0x4f 2) ↔ Regular (filled 0x4f) 5 0x00403) ∧
    Regular (filled 0x4f) 5 0x00403 :=
  ⟨rfl, walks_iff rfl served_leaf, by decide, by decide⟩

/-- A pointer with the access bit set at both levels. -/
theorem served_pointer : Served (filled 0x41) 5 0x00403 {} (cycle 0x41 5) := by
  apply served_of_rests
  · decide
  · decide
  · decide
  · decide

/-- The walk faults, and the buffers get an entry with the access bit set. -/
theorem pointer_returned : Served (filled 0x41) 5 0x00403 {} (cycle 0x41 5) ∧
    ¬Walked (filled 0x41) 5 0x00403 {} (cycle 0x41 5) := by
  refine ⟨served_pointer, ?_⟩
  rw [walked_iff served_pointer rfl, agrees_iff]
  intro regular
  have cleared : (nextEntry (filled 0x41) 5 0x00403).pte.a = false :=
    (regular.2 (by decide)).2 (by decide)
  exact absurd cleared (by decide)

end Ptw

end SnitchCluster.Vm
