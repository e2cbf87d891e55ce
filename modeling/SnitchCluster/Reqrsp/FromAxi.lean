/-
# Reqrsp.FromAxi -- bursts as single requests

`axi_to_reqrsp`: the beats of a read burst and of a write burst, each under a counter
of its own, meet at an arbiter that prefers the higher QoS, single writes and then the
burst at hand.  What it picks is forked to the request channel and to two side queues,
from which a response learns what it is for and whether R, B or both get it.

The three takers of a beat take it in different cycles, and so do R and B.
`bursts_served` says that they stay aligned: there is one order of beats, the bursts
are served in it, and requests and responses follow it.
-/
import SnitchCluster.Reqrsp.Package
import SnitchCluster.Theory.Clocked
import SnitchCluster.Theory.Streams

namespace SnitchCluster.Reqrsp

open Theory

/-- `meta_t`: one beat of a burst. -/
structure MetaT (AW IW : Nat) where
  addr : BitVec AW
  atop : BitVec 6
  id : BitVec IW
  last : Bool
  qos : BitVec 4
  size : BitVec 3
  write : Bool
  lock : Bool
  deriving DecidableEq

/-- The sizes, the encodings and the cells. -/
structure FromAxiParts where
  AxiAddrWidth : Nat
  AddrWidth : Nat
  DataWidth : Nat
  IdWidth : Nat
  BufDepth : Nat
  axi : AxiPkg
  axMux : LawfulSelect 2
  fork : LawfulFork 3
  selBuf : LawfulFall (Bool × Bool) (1 + BufDepth)
  metaBuf : LawfulFall (MetaT AddrWidth IdWidth) (1 + BufDepth)
  join : LawfulJoin 2
  forkDynamic : LawfulBranch 2

namespace FromAxiParts

variable (P : FromAxiParts)

abbrev Req := ReqChan P.AddrWidth P.DataWidth

abbrev Rsp := RspChan P.DataWidth

abbrev Ar := ArChan P.AxiAddrWidth P.IdWidth

abbrev Aw := AwChan P.AxiAddrWidth P.IdWidth

abbrev W := WChan P.DataWidth

abbrev R := RChan P.IdWidth P.DataWidth

abbrev B := BChan P.IdWidth

abbrev Beat := MetaT P.AddrWidth P.IdWidth

end FromAxiParts

/-- A burst: the beats still to come, and the last one that went. -/
structure Burst (P : FromAxiParts) where
  cnt : BitVec 8
  held : P.Beat

/-- The registers. -/
structure FromAxi (P : FromAxiParts) where
  rd : Burst P
  wr : Burst P
  metaSel : Bool
  selLock : Bool
  fork : P.fork.State
  selBuf : P.selBuf.State
  metaBuf : P.metaBuf.State
  forkDynamic : P.forkDynamic.State

/-- `meta_t'{default: '0}`. -/
def MetaT.zero (AW IW : Nat) : MetaT AW IW :=
  { addr := 0, atop := 0, id := 0, last := false, qos := 0, size := 0, write := false, lock := false }

def FromAxi.init (P : FromAxiParts) : FromAxi P where
  rd := ⟨0, .zero _ _⟩
  wr := ⟨0, .zero _ _⟩
  metaSel := false
  selLock := false
  fork := P.fork.init
  selBuf := P.selBuf.init
  metaBuf := P.metaBuf.init
  forkDynamic := P.forkDynamic.init

/-- The inputs of a cycle. -/
structure FromAxiIn (P : FromAxiParts) where
  arValid : Bool
  ar : P.Ar
  awValid : Bool
  aw : P.Aw
  wValid : Bool
  w : P.W
  rReady : Bool
  bReady : Bool
  qReady : Bool
  pValid : Bool
  p : P.Rsp

/-! ## Bursts -/

/-- The beat a burst begins with, as its register keeps it: at the aligned address. -/
def firstHeld (P : FromAxiParts) (ax : P.Ar) (atop : BitVec 6) (write : Bool) : P.Beat where
  addr := (P.axi.alignedAddr ax.addr ax.size).setWidth _
  atop := atop
  id := ax.id
  last := ax.len == 0
  qos := ax.qos
  size := ax.size
  write := write
  lock := ax.lock

/-- The beat a burst begins with, as it goes out. -/
def firstBeat (P : FromAxiParts) (ax : P.Ar) (atop : BitVec 6) (write : Bool) : P.Beat :=
  { firstHeld P ax atop write with addr := ax.addr.setWidth _ }

namespace Burst

variable {P : FromAxiParts} (b : Burst P) (start : Bool) (ax : P.Ar) (atop : BitVec 6)
  (write : Bool)

/-- A burst is in progress. -/
def busy : Bool := b.cnt != 0

/-- What the register is given before a handshake. -/
def heldD : P.Beat :=
  if b.busy then { b.held with last := b.cnt == 1 }
  else if start then firstHeld P ax atop write
  else b.held

/-- The beat on offer. -/
def beat : P.Beat :=
  if b.busy then
    { b.held with
      last := b.cnt == 1
      addr := b.held.addr + (P.axi.numBytes b.held.size).setWidth _ }
  else if start then firstBeat P ax atop write
  else .zero _ _

/-- The burst after a cycle in which its beat goes out or not. -/
def next (go : Bool) : Burst P where
  cnt :=
    if b.busy then (if go then b.cnt - 1 else b.cnt)
    else if start && go then ax.len
    else b.cnt
  held :=
    if b.busy && go then
      { b.heldD start ax atop write with addr := (b.beat start ax atop write).addr }
    else b.heldD start ax atop write

end Burst

/-! ## The cycle -/

namespace FromAxi

variable {P : FromAxiParts} (s : FromAxi P) (i : FromAxiIn P)

/-- `rd_meta`. -/
def rdMeta : P.Beat := s.rd.beat i.arValid i.ar 0 false

/-- `rd_valid`. -/
def rdValid : Bool := s.rd.busy || i.arValid

/-- `wr_meta`. -/
def wrMeta : P.Beat := s.wr.beat (i.awValid && i.wValid) i.aw.toArChan i.aw.atop true

/-- `wr_valid`. -/
def wrValid : Bool := if s.wr.busy then i.wValid else i.awValid && i.wValid

/-- `meta_sel_d`: whether the write is picked. -/
def metaSelD : Bool :=
  if s.selLock then s.metaSel
  else if xor (s.wrValid i) (s.rdValid i) then s.wrValid i
  else if s.wrValid i && s.rdValid i then
    if (s.rdMeta i).qos < (s.wrMeta i).qos then true
    else if (s.wrMeta i).qos < (s.rdMeta i).qos then false
    else if (s.wrMeta i).last && !(s.rdMeta i).last then true
    else if s.wr.busy then true
    else if s.rd.busy then false
    else !s.metaSel
  else s.metaSel

/-- The input of the multiplexer that is picked. -/
def sel : Fin 2 := if s.metaSelD i then 1 else 0

/-- `arb_valid`. -/
def arbValid : Bool :=
  P.axMux.valid (fun k => if k = 0 then s.rdValid i else s.wrValid i) (s.sel i)

/-- `meta`. -/
def arbMeta : P.Beat :=
  P.axMux.data (fun k => if k = 0 then s.rdMeta i else s.wrMeta i) (s.sel i)

/-- `sel_ready`. -/
def selReady : Bool := P.selBuf.ready s.selBuf

/-- `meta_ready`. -/
def metaReady : Bool := P.metaBuf.ready s.metaBuf

/-- What the fork sees of the request channel and the two queues. -/
def forkReady (k : Fin 3) : Bool :=
  if k = 0 then i.qReady else if k = 1 then s.metaReady else s.selReady

/-- `arb_ready`. -/
def arbReady : Bool := P.fork.ready s.fork (s.arbValid i) (s.forkReady i)

def forkValid (k : Fin 3) : Bool := P.fork.valid s.fork (s.arbValid i) k

/-- `reqrsp_req_o.q_valid`. -/
def qValid : Bool := s.forkValid i 0

def metaValid : Bool := s.forkValid i 1

def selValid : Bool := s.forkValid i 2

def rdReady : Bool := P.axMux.ready (s.arbReady i) (s.sel i) 0

def wrReady : Bool := P.axMux.ready (s.arbReady i) (s.sel i) 1

/-- `axi_rsp_o.ar_ready`. -/
def arReady : Bool := !s.rd.busy && i.arValid && s.rdReady i

/-- `axi_rsp_o.aw_ready`. -/
def awReady : Bool := !s.wr.busy && (i.awValid && i.wValid) && s.wrReady i

/-- `axi_rsp_o.w_ready`. -/
def wReady : Bool := s.wrValid i && s.wrReady i

/-! ## Requests -/

/-- `sel_b`. -/
def selB (m : P.Beat) : Bool := m.write && m.last

/-- `sel_r`. -/
def selR (m : P.Beat) : Bool := !m.write || m.atop.getLsbD 5

/-- `amo`. -/
def amo (m : P.Beat) : AmoOp :=
  if m.lock then (if m.write then .AMOSC else .AMOLR) else P.axi.fromAxiAmo m.atop

/-- `data`: the request has an and where AXI has a clear. -/
def data (m : P.Beat) (w : P.W) : BitVec P.DataWidth :=
  if P.axi.fromAxiAmo m.atop = .AMOAnd then ~~~w.data else w.data

/-- `reqrsp_req_o.q`; the data channel is silenced for a read. -/
def q (m : P.Beat) (w : P.W) : P.Req where
  addr := m.addr
  write := m.write && amo m == .AMONone
  amo := amo m
  data := if m.write then data m w else 0
  strb := if m.write then w.strb else 0
  size := m.size

/-! ## Responses -/

/-- `resp`: the upper bit is the error, the lower one the success of an exclusive access. -/
def resp (m : P.Beat) (p : P.Rsp) : BitVec 2 :=
  BitVec.ofBool p.error ++
    BitVec.ofBool (if m.lock then p.data.getLsbD 0 else P.axi.RESP_OKAY.getLsbD 0)

/-- `axi_rsp_o.r`. -/
def r (m : P.Beat) (p : P.Rsp) : P.R where
  id := m.id
  data := p.data
  resp := resp m p
  last := m.last

/-- `axi_rsp_o.b`. -/
def b (m : P.Beat) (p : P.Rsp) : P.B where
  id := m.id
  resp := resp m p

/-- `sel_b` and `sel_r`, as they are queued. -/
def selOf (m : P.Beat) : Bool × Bool := (selB m, selR m)

/-- `meta_buf`. -/
def metaBufO : P.Beat := P.metaBuf.data s.metaBuf (s.metaValid i) (s.arbMeta i)

def metaBufValid : Bool := P.metaBuf.valid s.metaBuf (s.metaValid i)

/-- `sel_buf_b` and `sel_buf_r`. -/
def selBufO : Bool × Bool := P.selBuf.data s.selBuf (s.selValid i) (selOf (s.arbMeta i))

def selBufValid : Bool := P.selBuf.valid s.selBuf (s.selValid i)

def joinIn (k : Fin 2) : Bool := if k = 0 then s.metaBufValid i else i.pValid

/-- `mem_join_valid`. -/
def memJoinValid : Bool := P.join.valid (s.joinIn i)

/-- The channels a response is for: R, then B. -/
def selIn (k : Fin 2) : Bool := if k = 0 then (s.selBufO i).2 else (s.selBufO i).1

def readyIn (k : Fin 2) : Bool := if k = 0 then i.rReady else i.bReady

/-- `mem_join_ready`. -/
def memJoinReady : Bool :=
  P.forkDynamic.ready s.forkDynamic (s.memJoinValid i) (s.selIn i) (s.selBufValid i) (readyIn i)

def selBufReady : Bool :=
  P.forkDynamic.selReady s.forkDynamic (s.memJoinValid i) (s.selIn i) (s.selBufValid i) (readyIn i)

def metaBufReady : Bool := P.join.ready (s.joinIn i) (s.memJoinReady i) 0

/-- `reqrsp_req_o.p_ready`. -/
def pReady : Bool := P.join.ready (s.joinIn i) (s.memJoinReady i) 1

/-- `axi_rsp_o.r_valid` and `axi_rsp_o.b_valid`. -/
def rbValid (k : Fin 2) : Bool :=
  P.forkDynamic.valid s.forkDynamic (s.memJoinValid i) (s.selIn i) (s.selBufValid i) k

def next : FromAxi P where
  rd := s.rd.next i.arValid i.ar 0 false (s.rdReady i)
  wr := s.wr.next (i.awValid && i.wValid) i.aw.toArChan i.aw.atop true (s.wrValid i && s.wrReady i)
  metaSel := s.metaSelD i
  selLock :=
    if s.selLock then s.selLock && !(s.arbValid i && s.arbReady i)
    else s.arbValid i && !s.arbReady i
  fork := P.fork.next s.fork (s.arbValid i) (s.forkReady i)
  selBuf := P.selBuf.next s.selBuf (s.selValid i) (selOf (s.arbMeta i)) (s.selBufReady i)
  metaBuf := P.metaBuf.next s.metaBuf (s.metaValid i) (s.arbMeta i) (s.metaBufReady i)
  forkDynamic := P.forkDynamic.next s.forkDynamic (s.memJoinValid i) (s.selIn i) (s.selBufValid i)
    (readyIn i)

/-! ## Runs -/

/-- A beat, with the data it carries if it is a write. -/
abbrev Item (P : FromAxiParts) := P.Beat × Option P.W

/-- The beat at the arbiter. -/
def item : Option (Item P) :=
  if s.arbValid i then some (s.arbMeta i, if (s.arbMeta i).write then some i.w else none) else none

/-- What a cycle shows: the beat the fork is done with, and the one it is not done with;
the bursts and the data accepted, and those left waiting; the request and the response
that are taken, and a response left waiting; the beats of R and B. -/
structure Obs (P : FromAxiParts) where
  item : Option (Item P)
  itemLeft : Option (Item P)
  ar : Option P.Ar
  arLeft : Option P.Ar
  aw : Option P.Aw
  awLeft : Option P.Aw
  w : Option P.W
  wLeft : Option P.W
  request : Option P.Req
  response : Option P.Rsp
  responseLeft : Option P.Rsp
  rBeat : Option P.R
  bBeat : Option P.B

def machine (P : FromAxiParts) : Machine (FromAxi P) (FromAxiIn P) (Obs P) where
  obs s i :=
    { item := if s.arbReady i then s.item i else none
      itemLeft := if s.arbReady i then none else s.item i
      ar := if s.arReady i then some i.ar else none
      arLeft := if i.arValid && !s.arReady i then some i.ar else none
      aw := if s.awReady i then some i.aw else none
      awLeft := if i.awValid && !s.awReady i then some i.aw else none
      w := if s.wReady i then some i.w else none
      wLeft := if i.wValid && !s.wReady i then some i.w else none
      request := if s.qValid i && i.qReady then some (q (s.arbMeta i) i.w) else none
      response := if i.pValid && s.pReady i then some i.p else none
      responseLeft := if i.pValid && !s.pReady i then some i.p else none
      rBeat := if s.rbValid i 0 && i.rReady then some (r (s.metaBufO i) i.p) else none
      bBeat := if s.rbValid i 1 && i.bReady then some (b (s.metaBufO i) i.p) else none }
  next := next

section Past

variable (past : List (Obs P))

/-- The beats, in the order the arbiter has given them. -/
def order : List (Item P) := past.filterMap Obs.item

/-- The bursts accepted, and the data. -/
def ars : List P.Ar := past.filterMap Obs.ar

def aws : List P.Aw := past.filterMap Obs.aw

def ws : List P.W := past.filterMap Obs.w

def requests : List P.Req := past.filterMap Obs.request

def responses : List P.Rsp := past.filterMap Obs.response

def rBeats : List P.R := past.filterMap Obs.rBeat

def bBeats : List P.B := past.filterMap Obs.bBeat

/-- What the last cycle left waiting. -/
def waits {α : Type} (f : Obs P → Option α) : Option α := past.getLast?.bind f

end Past

/-- What is offered is held until it is taken: bursts, data, responses. -/
def steady : Machine.Env (FromAxi P) (FromAxiIn P) (Obs P) := fun past _ i =>
  (∀ ar, waits past Obs.arLeft = some ar → i.arValid = true ∧ i.ar = ar) ∧
    (∀ aw, waits past Obs.awLeft = some aw → i.awValid = true ∧ i.aw = aw) ∧
    (∀ w, waits past Obs.wLeft = some w → i.wValid = true ∧ i.w = w) ∧
    (∀ p, waits past Obs.responseLeft = some p → i.pValid = true ∧ i.p = p)

/-- The beats of a burst: the first at its address, the others at the aligned address
and multiples of the size from it, the last one marked. -/
def beats (P : FromAxiParts) (ax : P.Ar) (atop : BitVec 6) (write : Bool) : List P.Beat :=
  (List.range (ax.len.toNat + 1)).map fun k =>
    { firstHeld P ax atop write with
      addr :=
        if k = 0 then ax.addr.setWidth _
        else (P.axi.alignedAddr ax.addr ax.size).setWidth _ + BitVec.ofNat _ (k * 2 ^ ax.size.toNat)
      last := decide (k = ax.len.toNat) }

def readBeats (P : FromAxiParts) (ar : P.Ar) : List P.Beat := beats P ar 0 false

def writeBeats (P : FromAxiParts) (aw : P.Aw) : List P.Beat := beats P aw.toArChan aw.atop true

/-- What a burst has left. -/
def left (b : Burst P) : List P.Beat :=
  (List.range b.cnt.toNat).map fun k =>
    { b.held with
      addr := b.held.addr + BitVec.ofNat _ ((k + 1) * 2 ^ b.held.size.toNat)
      last := decide (k + 1 = b.cnt.toNat) }

/-- The request of a beat. -/
def requestOf (x : Item P) : P.Req := q x.1 (x.2.getD ⟨0, 0, false⟩)

/-- The beat of R a response makes for a beat, and that of B. -/
def rOf (x : Item P) (p : P.Rsp) : Option P.R := if selR x.1 then some (r x.1 p) else none

def bOf (x : Item P) (p : P.Rsp) : Option P.B := if selB x.1 then some (b x.1 p) else none

/-- The beats a taker of the fork has had: those done with, and the one at the fork if
the taker has it already. -/
def fed (past : List (Obs P)) (s : FromAxi P) (taker : Fin 3) : List (Item P) :=
  order past ++ if P.fork.served s.fork taker then (waits past Obs.itemLeft).toList else []

/-- The responses R has had, or B: those done with, and the one at hand. -/
def answered (past : List (Obs P)) (s : FromAxi P) (channel : Fin 2) : List P.Rsp :=
  responses past ++
    if P.forkDynamic.served s.forkDynamic channel then (waits past Obs.responseLeft).toList else []

/-- Service of the bursts of a run.  The two kinds are interleaved in one order, in which
requests go out and responses are handed on. -/
structure Served (past : List (Obs P)) (s : FromAxi P) : Prop where
  -- the bursts accepted are the beats in order and those left
  reads : ((order past).map Prod.fst).filter (fun m => !m.write) ++ left s.rd =
    (ars past).flatMap (readBeats P)
  writes : ((order past).map Prod.fst).filter (fun m => m.write) ++ left s.wr =
    (aws past).flatMap (writeBeats P)
  data : (order past).filterMap Prod.snd = ws past ∧ ∀ x ∈ order past, x.2.isSome = x.1.write
  -- one request for each beat
  requests_eq : requests past = (fed past s 0).map requestOf
  -- one response for each beat, on R, on B, or on both
  rBeats_eq : rBeats past = ((fed past s 1).zip (answered past s 0)).filterMap fun a => rOf a.1 a.2
  bBeats_eq : bBeats past = ((fed past s 1).zip (answered past s 1)).filterMap fun a => bOf a.1 a.2
  room : (responses past).length ≤ (fed past s 1).length ∧
    (fed past s 1).length ≤ (responses past).length + (1 + P.BufDepth)
  -- a beat waits for a request to be taken or for a response, a response for R and B
  moves : ∀ i, s.arbValid i = true → i.qReady = true →
    (order past).length < (responses past).length + (1 + P.BufDepth) → s.arbReady i = true
  hands : ∀ i, i.pValid = true → i.rReady = true → i.bReady = true →
    (responses past).length < (order past).length → s.pReady i = true

/-! ## One burst -/

section OneBurst

variable (b : Burst P) (start : Bool) (ax : P.Ar) (atop : BitVec 6) (write : Bool)

theorem setWidth_numBytes {w : Nat} (size : BitVec 3) :
    (P.axi.numBytes size).setWidth w = BitVec.ofNat w (2 ^ size.toNat) := by
  rw [← P.axi.numBytes_eq, BitVec.ofNat_toNat]

theorem busy_iff : b.busy = true ↔ b.cnt.toNat ≠ 0 := by
  rw [Burst.busy, bne_iff_ne, ne_eq, ne_eq, BitVec.toNat_eq]
  exact Iff.rfl

theorem idle_iff : b.busy = false ↔ b.cnt.toNat = 0 := by
  rw [← Bool.not_eq_true, busy_iff, not_not]

theorem left_idle (idle : b.busy = false) : left b = [] := by
  rw [left, (idle_iff b).mp idle]
  rfl

/-- A burst in progress gives its next beat. -/
theorem left_busy (busy : b.busy = true) :
    left b = b.beat start ax atop write :: left (b.next start ax atop write true) := by
  have some := (busy_iff b).mp busy
  obtain ⟨n, count⟩ := Nat.exists_eq_succ_of_ne_zero some
  have bound := b.cnt.isLt
  have fewer : (b.cnt - 1).toNat = n := by
    have one : (1 : BitVec 8).toNat = 1 := rfl
    rw [BitVec.toNat_sub_of_le (by rw [BitVec.le_def, one]; omega), one]
    omega
  have final : (b.cnt == 1) = decide (0 + 1 = n + 1) := by
    rw [Bool.eq_iff_iff, beq_iff_eq, decide_eq_true_iff, BitVec.toNat_eq, count]
    show n + 1 = 1 ↔ _
    omega
  have after : b.next start ax atop write true =
      ⟨b.cnt - 1, { b.held with
        last := b.cnt == 1
        addr := b.held.addr + (P.axi.numBytes b.held.size).setWidth _ }⟩ := by
    simp [Burst.next, Burst.heldD, Burst.beat, busy]
  have now : b.beat start ax atop write = { b.held with
      last := b.cnt == 1
      addr := b.held.addr + (P.axi.numBytes b.held.size).setWidth _ } := by
    rw [Burst.beat, if_pos busy]
  rw [after, now, left, left, count, fewer, List.range_succ_eq_map, List.map_cons, List.map_map,
    final, setWidth_numBytes]
  congr 1
  · rw [Nat.zero_add, Nat.one_mul]
  · apply List.map_congr_left
    intro k _
    have address : b.held.addr + BitVec.ofNat P.AddrWidth ((k + 1 + 1) * 2 ^ b.held.size.toNat) =
        b.held.addr + BitVec.ofNat P.AddrWidth (2 ^ b.held.size.toNat) +
          BitVec.ofNat P.AddrWidth ((k + 1) * 2 ^ b.held.size.toNat) := by
      rw [BitVec.add_assoc, ← BitVec.ofNat_add, Nat.succ_mul (k + 1), Nat.add_comm]
    have marked : decide (k + 1 + 1 = n + 1) = decide (k + 1 = n) := by
      rw [decide_eq_decide, Nat.succ_inj]
    simp only [Function.comp_apply, Nat.succ_eq_add_one, address, marked]

/-- A burst that begins gives its first beat. -/
theorem beats_first (idle : b.busy = false) :
    beats P ax atop write =
      b.beat true ax atop write :: left (b.next true ax atop write true) := by
  have first : b.beat true ax atop write = firstBeat P ax atop write := by
    rw [Burst.beat, idle]
    rfl
  have after : b.next true ax atop write true = ⟨ax.len, firstHeld P ax atop write⟩ := by
    rw [Burst.next, Burst.heldD, idle]
    rfl
  have final : (ax.len == 0) = decide (0 = ax.len.toNat) := by
    rw [Bool.eq_iff_iff, beq_iff_eq, decide_eq_true_iff, BitVec.toNat_eq, eq_comm]
    rfl
  rw [first, after, beats, left, List.range_succ_eq_map, List.map_cons, List.map_map]
  congr 1
  rw [firstBeat, firstHeld, if_pos rfl, final]

/-- Nothing goes, nothing changes. -/
theorem left_stays : left (b.next start ax atop write false) = left b := by
  have count : (b.next start ax atop write false).cnt = b.cnt := by
    simp [Burst.next]
  cases busy : b.busy with
  | false =>
    have idle : (b.next start ax atop write false).busy = false := by
      rw [Burst.busy, count]
      exact busy
    rw [left_idle _ idle, left_idle _ busy]
  | true =>
    have after : (b.next start ax atop write false).held = { b.held with last := b.cnt == 1 } := by
      simp [Burst.next, Burst.heldD, busy]
    rw [left, left, count, after]

/-- **A burst is served beat by beat.** -/
theorem left_next {go : Bool} (offered : go = true → b.busy = true ∨ start = true) :
    left b ++ (if !b.busy && start && go then beats P ax atop write else []) =
      (if go then [b.beat start ax atop write] else []) ++
        left (b.next start ax atop write go) := by
  cases go with
  | false =>
    rw [left_stays, Bool.and_false, if_neg Bool.false_ne_true, if_neg Bool.false_ne_true,
      List.append_nil]
    rfl
  | true =>
    cases busy : b.busy with
    | true =>
      rw [left_busy b start ax atop write busy]
      exact List.append_nil _
    | false =>
      obtain rfl := (offered rfl).resolve_left fun other => by
        rw [busy] at other
        exact Bool.noConfusion other
      rw [left_idle b busy, beats_first b ax atop write busy]
      rfl

/-- A beat that does not go stays on offer. -/
theorem beat_stays (held : b.busy = true ∨ start = true) {start' : Bool} {ax' : P.Ar}
    {atop' : BitVec 6} (same : b.busy = false → start' = true ∧ ax' = ax ∧ atop' = atop) :
    (b.next start ax atop write false).busy = b.busy ∧
      (b.next start ax atop write false).beat start' ax' atop' write =
        b.beat start ax atop write := by
  have count : (b.next start ax atop write false).cnt = b.cnt := by
    simp [Burst.next]
  have state : (b.next start ax atop write false).busy = b.busy := by
    rw [Burst.busy, count]
    rfl
  refine ⟨state, ?_⟩
  rw [Burst.beat, Burst.beat, state]
  cases busy : b.busy with
  | true =>
    have after : (b.next start ax atop write false).held = { b.held with last := b.cnt == 1 } := by
      simp [Burst.next, Burst.heldD, busy]
    rw [count, after]
    rfl
  | false =>
    obtain ⟨rfl, rfl, rfl⟩ := same busy
    obtain rfl := held.resolve_left fun other => by
      rw [busy] at other
      exact Bool.noConfusion other
    rfl

/-- The beats of a burst are all reads or all writes. -/
def OfKind (b : Burst P) (write : Bool) : Prop := b.busy = true → b.held.write = write

theorem beat_write (kind : OfKind b write) (held : b.busy = true ∨ start = true) :
    (b.beat start ax atop write).write = write := by
  rw [Burst.beat]
  cases busy : b.busy with
  | true => exact kind busy
  | false =>
    obtain rfl := held.resolve_left fun other => by
      rw [busy] at other
      exact Bool.noConfusion other
    rfl

theorem OfKind.next (kind : OfKind b write) (go : Bool) :
    OfKind (b.next start ax atop write go) write := by
  intro later
  cases busy : b.busy with
  | true =>
    have write' := kind busy
    cases go <;> simp [Burst.next, Burst.heldD, busy, write']
  | false =>
    cases start with
    | true => simp [Burst.next, Burst.heldD, busy, firstHeld]
    | false =>
      have same : (b.next false ax atop write go).cnt = b.cnt := by
        simp [Burst.next, busy]
      rw [Burst.busy, same] at later
      rw [Burst.busy, later] at busy
      exact Bool.noConfusion busy

end OneBurst

/-! ## One cycle -/

section Cycle

variable {s i}

theorem arbValid_eq : s.arbValid i = if s.metaSelD i then s.wrValid i else s.rdValid i := by
  rw [arbValid, P.axMux.valid_eq, sel]
  cases s.metaSelD i <;> rfl

theorem arbMeta_eq : s.arbMeta i = if s.metaSelD i then s.wrMeta i else s.rdMeta i := by
  rw [arbMeta, P.axMux.data_eq, sel]
  cases s.metaSelD i <;> rfl

theorem rdReady_eq : s.rdReady i = (!s.metaSelD i && s.arbReady i) := by
  rw [rdReady, P.axMux.ready_eq, sel]
  cases s.metaSelD i <;> rfl

theorem wrReady_eq : s.wrReady i = (s.metaSelD i && s.arbReady i) := by
  rw [wrReady, P.axMux.ready_eq, sel]
  cases s.metaSelD i <;> rfl

theorem forkValid_eq (k : Fin 3) :
    s.forkValid i k = (s.arbValid i && !P.fork.served s.fork k) :=
  P.fork.lawful.valid_eq _ _ _

theorem arbReady_iff : s.arbReady i = true ↔
    s.arbValid i = true ∧ ∀ k, P.fork.served s.fork k = true ∨ s.forkReady i k = true := by
  rw [arbReady, P.fork.lawful.ready_eq, Bool.and_eq_true, List.all_eq_true]
  constructor
  · rintro ⟨valid, all⟩
    refine ⟨valid, fun k => ?_⟩
    have one := all k (List.mem_finRange k)
    rwa [Bool.or_eq_true] at one
  · rintro ⟨valid, all⟩
    refine ⟨valid, fun k _ => ?_⟩
    rw [Bool.or_eq_true]
    exact all k

theorem served_next (k : Fin 3) : P.fork.served (s.next i).fork k =
    if s.arbReady i then false
    else P.fork.served s.fork k || (s.arbValid i && s.forkReady i k) :=
  P.fork.lawful.next_eq _ _ _ _

/-- A write on offer has its data. -/
theorem wValid_of_wrValid (valid : s.wrValid i = true) : i.wValid = true := by
  rw [wrValid] at valid
  cases busy : s.wr.busy with
  | true => rwa [busy, if_pos rfl] at valid
  | false =>
    rw [busy, if_neg Bool.false_ne_true, Bool.and_eq_true] at valid
    exact valid.2

theorem wr_held (valid : s.wrValid i = true) :
    s.wr.busy = true ∨ (i.awValid && i.wValid) = true := by
  rw [wrValid] at valid
  cases busy : s.wr.busy with
  | true => exact Or.inl rfl
  | false =>
    rw [busy, if_neg Bool.false_ne_true] at valid
    exact Or.inr valid

theorem rd_held (valid : s.rdValid i = true) : s.rd.busy = true ∨ i.arValid = true := by
  rwa [rdValid, Bool.or_eq_true] at valid

theorem memJoinValid_eq : s.memJoinValid i = (s.metaBufValid i && i.pValid) := by
  rw [memJoinValid, P.join.valid_eq]
  have two : List.finRange 2 = [0, 1] := by decide
  rw [two]
  simp [joinIn]

/-- A response is done with. -/
theorem memJoinReady_iff : s.memJoinReady i = true ↔
    s.selBufValid i = true ∧ s.memJoinValid i = true ∧
      ∀ k, P.forkDynamic.served s.forkDynamic k = true ∨
        (!s.selIn i k || readyIn i k) = true := by
  rw [memJoinReady, P.forkDynamic.lawful.ready_eq, Bool.and_eq_true, Bool.and_eq_true,
    List.all_eq_true, and_assoc]
  constructor
  · rintro ⟨sel, valid, all⟩
    refine ⟨sel, valid, fun k => ?_⟩
    have one := all k (List.mem_finRange k)
    rwa [Bool.or_eq_true] at one
  · rintro ⟨sel, valid, all⟩
    refine ⟨sel, valid, fun k _ => ?_⟩
    rw [Bool.or_eq_true]
    exact all k

theorem memJoinValid_of_ready (ready : s.memJoinReady i = true) : s.memJoinValid i = true :=
  (memJoinReady_iff.mp ready).2.1

/-- The three streams of a response are taken together. -/
theorem metaBufReady_eq : s.metaBufReady i = s.memJoinReady i := by
  have valid := memJoinValid_of_ready (s := s) (i := i)
  rw [metaBufReady, P.join.ready_eq]
  show (s.memJoinValid i && _) = _
  cases ready : s.memJoinReady i with
  | false => exact Bool.and_false _
  | true => rw [valid ready, Bool.and_self]

theorem pReady_eq : s.pReady i = s.memJoinReady i := by
  have valid := memJoinValid_of_ready (s := s) (i := i)
  rw [pReady, P.join.ready_eq]
  show (s.memJoinValid i && _) = _
  cases ready : s.memJoinReady i with
  | false => exact Bool.and_false _
  | true => rw [valid ready, Bool.and_self]

theorem selBufReady_eq : s.selBufReady i = s.memJoinReady i :=
  P.forkDynamic.lawful.selReady_eq _ _ _ _ _

theorem pHs_eq : (i.pValid && s.pReady i) = s.memJoinReady i := by
  rw [pReady_eq]
  cases ready : s.memJoinReady i with
  | false => exact Bool.and_false _
  | true =>
    have valid := memJoinValid_of_ready ready
    rw [memJoinValid_eq, Bool.and_eq_true] at valid
    rw [valid.2]
    rfl

/-- A channel has the response at hand by the end of the cycle. -/
def newly (s : FromAxi P) (i : FromAxiIn P) (channel : Fin 2) : Bool :=
  s.selBufValid i && s.memJoinValid i && !P.forkDynamic.served s.forkDynamic channel &&
    (!s.selIn i channel || readyIn i channel)

theorem beat_eq (channel : Fin 2) :
    (s.rbValid i channel && readyIn i channel) = (newly s i channel && s.selIn i channel) := by
  rw [rbValid, P.forkDynamic.lawful.valid_eq, newly]
  cases s.selIn i channel <;> cases readyIn i channel <;> simp

theorem dynServed_next (channel : Fin 2) :
    P.forkDynamic.served (s.next i).forkDynamic channel =
      if s.memJoinReady i then false
      else P.forkDynamic.served s.forkDynamic channel ||
        (s.selBufValid i && s.memJoinValid i && (!s.selIn i channel || readyIn i channel)) :=
  P.forkDynamic.lawful.next_eq _ _ _ _ _ _

/-- The upper bit of a response is the error. -/
theorem resp_error (m : P.Beat) (p : P.Rsp) : (resp m p).getLsbD 1 = p.error := by
  rw [resp, BitVec.getLsbD_append]
  cases p.error <;> rfl

/-- The request of a read does not depend on the data bus. -/
theorem q_read {m : P.Beat} (read : m.write = false) (w w' : P.W) : q m w = q m w' := by
  rw [q, q, read]
  rfl

end Cycle

/-! ## Histories -/

section History

variable (past : List (Obs P)) (s : FromAxi P) (i : FromAxiIn P)

theorem toList_ite {α : Type} (c : Bool) (x : α) :
    (if c then some x else none).toList = if c then [x] else [] := by
  cases c <;> rfl

theorem order_concat : order (past ++ [(machine P).obs s i]) =
    order past ++ if s.arbReady i then (s.item i).toList else [] := by
  rw [order, filterMap_concat]
  show _ ++ (if s.arbReady i then s.item i else none).toList = _
  cases s.arbReady i <;> rfl

theorem ars_concat : ars (past ++ [(machine P).obs s i]) =
    ars past ++ if s.arReady i then [i.ar] else [] := by
  exact filterMap_shown (by rfl) _

theorem aws_concat : aws (past ++ [(machine P).obs s i]) =
    aws past ++ if s.awReady i then [i.aw] else [] := by
  exact filterMap_shown (by rfl) _

theorem ws_concat : ws (past ++ [(machine P).obs s i]) =
    ws past ++ if s.wReady i then [i.w] else [] := by
  exact filterMap_shown (by rfl) _

theorem requests_concat : requests (past ++ [(machine P).obs s i]) =
    requests past ++ if s.qValid i && i.qReady then [q (s.arbMeta i) i.w] else [] := by
  exact filterMap_shown (by rfl) _

theorem responses_concat : responses (past ++ [(machine P).obs s i]) =
    responses past ++ if s.memJoinReady i then [i.p] else [] := by
  rw [responses, filterMap_concat, ← toList_ite, ← pHs_eq]
  rfl

theorem rBeats_concat : rBeats (past ++ [(machine P).obs s i]) =
    rBeats past ++ if s.rbValid i 0 && i.rReady then [r (s.metaBufO i) i.p] else [] := by
  exact filterMap_shown (by rfl) _

theorem bBeats_concat : bBeats (past ++ [(machine P).obs s i]) =
    bBeats past ++ if s.rbValid i 1 && i.bReady then [b (s.metaBufO i) i.p] else [] := by
  exact filterMap_shown (by rfl) _

theorem waits_concat {α : Type} (f : Obs P → Option α) :
    waits (past ++ [(machine P).obs s i]) f = f ((machine P).obs s i) := by
  rw [waits, List.getLast?_concat]
  rfl

end History

/-! ## The invariant -/

/-- The bursts account for the beats, the takers of the fork for the requests and the
side queues, and the channels for the responses. -/
structure Inv (past : List (Obs P)) (s : FromAxi P) : Prop where
  rdKind : OfKind s.rd false
  wrKind : OfKind s.wr true
  reads : ((order past).map Prod.fst).filter (fun m => !m.write) ++ left s.rd =
    (ars past).flatMap (readBeats P)
  writes : ((order past).map Prod.fst).filter (fun m => m.write) ++ left s.wr =
    (aws past).flatMap (writeBeats P)
  data : (order past).filterMap Prod.snd = ws past ∧ ∀ x ∈ order past, x.2.isSome = x.1.write
  -- the beat at the fork stays there
  stays : ∀ x, waits past Obs.itemLeft = some x → ∀ i, steady past s i → s.item i = some x
  busy : ∀ k, P.fork.served s.fork k = true → (waits past Obs.itemLeft).isSome = true
  requests_eq : requests past = (fed past s 0).map requestOf
  metas : P.metaBuf.contents s.metaBuf =
    ((fed past s 1).map Prod.fst).drop (responses past).length
  sels : P.selBuf.contents s.selBuf =
    ((fed past s 2).map fun x => selOf x.1).drop (responses past).length
  enough : ∀ k, k ≠ 0 → (responses past).length ≤ (fed past s k).length
  room : (P.metaBuf.contents s.metaBuf).length ≤ 1 + P.BufDepth
  -- the response at the channels stays there
  dyn : ∀ k, P.forkDynamic.served s.forkDynamic k = true →
    (waits past Obs.responseLeft).isSome = true ∧
      ∀ j, j ≠ 0 → (responses past).length < (fed past s j).length
  rBeats_eq : rBeats past = ((fed past s 1).zip (answered past s 0)).filterMap fun a => rOf a.1 a.2
  bBeats_eq : bBeats past = ((fed past s 1).zip (answered past s 1)).filterMap fun a => bOf a.1 a.2

theorem fed_init (k : Fin 3) : fed ([] : List (Obs P)) (init P) k = [] := by
  have none : P.fork.served (init P).fork k = false := P.fork.lawful.init k
  rw [fed, none]
  rfl

theorem inv_init : Inv ([] : List (Obs P)) (init P) where
  rdKind busy := absurd busy Bool.false_ne_true
  wrKind busy := absurd busy Bool.false_ne_true
  reads := rfl
  writes := rfl
  data := ⟨rfl, fun _ none => absurd none List.not_mem_nil⟩
  stays x none := absurd none.symm (Option.some_ne_none x)
  busy k served := by
    have none : P.fork.served (init P).fork k = false := P.fork.lawful.init k
    rw [none] at served
    exact Bool.noConfusion served
  requests_eq := by
    rw [fed_init]
    rfl
  metas := by
    rw [fed_init]
    exact P.metaBuf.lawful.init
  sels := by
    rw [fed_init]
    exact P.selBuf.lawful.init
  enough _ _ := Nat.zero_le _
  room := by
    have none : P.metaBuf.contents (init P).metaBuf = [] := P.metaBuf.lawful.init
    rw [none]
    exact Nat.zero_le _
  dyn k served := by
    have none : P.forkDynamic.served (init P).forkDynamic k = false := P.forkDynamic.lawful.init k
    rw [none] at served
    exact Bool.noConfusion served
  rBeats_eq := by
    rw [fed_init]
    rfl
  bBeats_eq := by
    rw [fed_init]
    rfl

section Step

variable {past : List (Obs P)} {s : FromAxi P} {i : FromAxiIn P}
  (before : Inv past s) (admitted : steady past s i)

include before

theorem Inv.rdMeta_write (valid : s.rdValid i = true) : (s.rdMeta i).write = false :=
  beat_write _ _ _ _ _ before.rdKind (rd_held valid)

theorem Inv.wrMeta_write (valid : s.wrValid i = true) : (s.wrMeta i).write = true :=
  beat_write _ _ _ _ _ before.wrKind (wr_held valid)

/-- The beat at the arbiter is of the kind that is picked. -/
theorem Inv.arbMeta_write (valid : s.arbValid i = true) : (s.arbMeta i).write = s.metaSelD i := by
  rw [arbValid_eq] at valid
  rw [arbMeta_eq]
  cases picked : s.metaSelD i with
  | true =>
    rw [picked, if_pos rfl] at valid
    exact before.wrMeta_write valid
  | false =>
    rw [picked, if_neg Bool.false_ne_true] at valid
    exact before.rdMeta_write valid

theorem Inv.item_eq (valid : s.arbValid i = true) :
    s.item i = some (s.arbMeta i, if s.metaSelD i then some i.w else none) := by
  rw [item, if_pos valid, before.arbMeta_write valid]

/-- The reads that go are those of the burst at hand. -/
theorem Inv.reads_next :
    ((order (past ++ [(machine P).obs s i])).map Prod.fst).filter (fun m => !m.write) ++
        left (s.next i).rd =
      (ars (past ++ [(machine P).obs s i])).flatMap (readBeats P) := by
  have offered : s.rdReady i = true → s.rd.busy = true ∨ i.arValid = true := by
    intro go
    rw [rdReady_eq, Bool.and_eq_true, Bool.not_eq_true'] at go
    have valid := (arbReady_iff.mp go.2).1
    rw [arbValid_eq, go.1, if_neg Bool.false_ne_true] at valid
    exact rd_held valid
  have step := left_next s.rd i.arValid i.ar 0 false offered
  have taken : ((if s.arbReady i then (s.item i).toList else []).map Prod.fst).filter
      (fun m => !m.write) = if s.rdReady i then [s.rdMeta i] else [] := by
    rw [rdReady_eq]
    cases ready : s.arbReady i with
    | false => rw [Bool.and_false]; rfl
    | true =>
      have valid := (arbReady_iff.mp ready).1
      have kind := before.arbMeta_write valid
      rw [if_pos rfl, before.item_eq valid, Option.toList_some, List.map_singleton,
        List.filter_singleton, kind, Bool.and_true, arbMeta_eq]
      cases s.metaSelD i <;> rfl
  have accepted : (if s.arReady i then [i.ar] else []).flatMap (readBeats P) =
      if !s.rd.busy && i.arValid && s.rdReady i then readBeats P i.ar else [] := by
    rw [arReady]
    cases !s.rd.busy && i.arValid && s.rdReady i with
    | false => rfl
    | true => exact List.append_nil _
  rw [order_concat, ars_concat, List.map_append, List.filter_append, taken, List.flatMap_append,
    accepted, ← before.reads, List.append_assoc, List.append_assoc]
  exact congrArg _ step.symm

/-- And so are the writes. -/
theorem Inv.writes_next :
    ((order (past ++ [(machine P).obs s i])).map Prod.fst).filter (fun m => m.write) ++
        left (s.next i).wr =
      (aws (past ++ [(machine P).obs s i])).flatMap (writeBeats P) := by
  have ofReady : s.wrReady i = true → s.wrValid i = true := by
    intro go
    rw [wrReady_eq, Bool.and_eq_true] at go
    have valid := (arbReady_iff.mp go.2).1
    rwa [arbValid_eq, go.1, if_pos rfl] at valid
  have both : (s.wrValid i && s.wrReady i) = s.wrReady i := by
    cases ready : s.wrReady i with
    | false => exact Bool.and_false _
    | true => rw [ofReady ready, Bool.and_self]
  have step := left_next s.wr (i.awValid && i.wValid) i.aw.toArChan i.aw.atop true
    fun go => wr_held (ofReady go)
  have taken : ((if s.arbReady i then (s.item i).toList else []).map Prod.fst).filter
      (fun m => m.write) = if s.wrReady i then [s.wrMeta i] else [] := by
    rw [wrReady_eq]
    cases ready : s.arbReady i with
    | false => rw [Bool.and_false]; rfl
    | true =>
      have valid := (arbReady_iff.mp ready).1
      have kind := before.arbMeta_write valid
      rw [if_pos rfl, before.item_eq valid, Option.toList_some, List.map_singleton,
        List.filter_singleton, kind, Bool.and_true, arbMeta_eq]
      cases s.metaSelD i <;> rfl
  have accepted : (if s.awReady i then [i.aw] else []).flatMap (writeBeats P) =
      if !s.wr.busy && (i.awValid && i.wValid) && s.wrReady i then writeBeats P i.aw else [] := by
    rw [awReady]
    cases !s.wr.busy && (i.awValid && i.wValid) && s.wrReady i with
    | false => rfl
    | true => exact List.append_nil _
  have after : (s.next i).wr =
      s.wr.next (i.awValid && i.wValid) i.aw.toArChan i.aw.atop true (s.wrReady i) := by
    rw [← both]
    rfl
  rw [order_concat, aws_concat, List.map_append, List.filter_append, taken, List.flatMap_append,
    accepted, ← before.writes, List.append_assoc, List.append_assoc, after]
  exact congrArg _ step.symm

/-- Each write carries the data accepted with it. -/
theorem Inv.data_next :
    (order (past ++ [(machine P).obs s i])).filterMap Prod.snd =
        ws (past ++ [(machine P).obs s i]) ∧
      ∀ x ∈ order (past ++ [(machine P).obs s i]), x.2.isSome = x.1.write := by
  rw [order_concat, ws_concat, List.filterMap_append, before.data.1, wReady, wrReady_eq]
  cases ready : s.arbReady i with
  | false =>
    rw [Bool.and_false, Bool.and_false, if_neg Bool.false_ne_true, if_neg Bool.false_ne_true,
      List.append_nil, List.append_nil]
    exact ⟨List.append_nil _, before.data.2⟩
  | true =>
    have valid := (arbReady_iff.mp ready).1
    have kind := before.arbMeta_write valid
    rw [if_pos rfl, before.item_eq valid, Option.toList_some, Bool.and_true]
    rw [arbValid_eq] at valid
    constructor
    · cases picked : s.metaSelD i with
      | false => rw [Bool.and_false]; rfl
      | true =>
        rw [picked, if_pos rfl] at valid
        rw [valid]
        rfl
    · intro x among
      rw [List.mem_append, List.mem_singleton] at among
      rcases among with earlier | rfl
      · exact before.data.2 x earlier
      · rw [kind]
        cases s.metaSelD i <;> rfl

omit before in
/-- A write beat that is not taken is offered again, ... -/
theorem wr_stays (offered : s.wrValid i = true) (unready : s.arbReady i = false)
    (i' : FromAxiIn P) (admitted' : steady (past ++ [(machine P).obs s i]) (s.next i) i') :
    (s.next i).wrValid i' = true ∧ (s.next i).wrMeta i' = s.wrMeta i ∧ i'.w = i.w := by
  obtain ⟨_, awStays, wStays, _⟩ := admitted'
  rw [waits_concat] at awStays wStays
  have wValid := wValid_of_wrValid offered
  have notTaken : s.wrReady i = false := by rw [wrReady_eq, unready, Bool.and_false]
  have sameW := wStays i.w (by
    show (if i.wValid && !s.wReady i then some i.w else none) = some i.w
    rw [wReady, notTaken, wValid, Bool.and_false]
    rfl)
  have sameAw : s.wr.busy = false →
      (i'.awValid && i'.wValid) = true ∧ i'.aw.toArChan = i.aw.toArChan ∧
        i'.aw.atop = i.aw.atop := by
    intro idle
    have start := (wr_held offered).resolve_left (by rw [idle]; exact Bool.false_ne_true)
    rw [Bool.and_eq_true] at start
    obtain ⟨awValid, awSame⟩ := awStays i.aw (by
      show (if i.awValid && !s.awReady i then some i.aw else none) = some i.aw
      rw [awReady, notTaken, start.1, Bool.and_false]
      rfl)
    rw [awValid, sameW.1, awSame]
    exact ⟨rfl, rfl, rfl⟩
  obtain ⟨busy, beat⟩ := beat_stays s.wr (i.awValid && i.wValid) i.aw.toArChan i.aw.atop true
    (wr_held offered) sameAw
  have after : (s.next i).wr =
      s.wr.next (i.awValid && i.wValid) i.aw.toArChan i.aw.atop true false := by
    have stopped : (s.wrValid i && s.wrReady i) = false := by rw [notTaken, Bool.and_false]
    rw [← stopped]
    rfl
  refine ⟨?_, ?_, sameW.2⟩
  · rw [wrValid, after, busy]
    cases state : s.wr.busy with
    | true => exact sameW.1
    | false => exact (sameAw state).1
  · rw [wrMeta, after]
    exact beat

omit before in
/-- ... and so is a read beat. -/
theorem rd_stays (offered : s.rdValid i = true) (unready : s.arbReady i = false)
    (i' : FromAxiIn P) (admitted' : steady (past ++ [(machine P).obs s i]) (s.next i) i') :
    (s.next i).rdValid i' = true ∧ (s.next i).rdMeta i' = s.rdMeta i := by
  obtain ⟨arStays, _, _, _⟩ := admitted'
  rw [waits_concat] at arStays
  have notTaken : s.rdReady i = false := by rw [rdReady_eq, unready, Bool.and_false]
  have sameAr : s.rd.busy = false →
      i'.arValid = true ∧ i'.ar = i.ar ∧ (0 : BitVec 6) = 0 := by
    intro idle
    have start := (rd_held offered).resolve_left (by rw [idle]; exact Bool.false_ne_true)
    obtain ⟨arValid, arSame⟩ := arStays i.ar (by
      show (if i.arValid && !s.arReady i then some i.ar else none) = some i.ar
      rw [arReady, notTaken, start, Bool.and_false]
      rfl)
    exact ⟨arValid, arSame, rfl⟩
  obtain ⟨busy, beat⟩ := beat_stays s.rd i.arValid i.ar 0 false (rd_held offered) sameAr
  have after : (s.next i).rd = s.rd.next i.arValid i.ar 0 false false := by
    show s.rd.next i.arValid i.ar 0 false (s.rdReady i) = _
    rw [notTaken]
  constructor
  · rw [rdValid, after, busy]
    cases state : s.rd.busy with
    | true => rfl
    | false => exact (sameAr state).1
  · rw [rdMeta, after]
    exact beat

/-- A beat that is left at the fork is offered again. -/
theorem Inv.stays_next {x : Item P}
    (kept : waits (past ++ [(machine P).obs s i]) Obs.itemLeft = some x) (i' : FromAxiIn P)
    (admitted' : steady (past ++ [(machine P).obs s i]) (s.next i) i') :
    (s.next i).item i' = some x := by
  rw [waits_concat] at kept
  have unready : s.arbReady i = false := by
    by_contra ready
    rw [Bool.not_eq_false] at ready
    have none : ((machine P).obs s i).itemLeft = none := if_pos ready
    rw [none] at kept
    exact Option.some_ne_none x kept.symm
  have shown : s.item i = some x := by
    rw [← kept]
    exact (if_neg (Bool.eq_false_iff.mp unready)).symm
  have valid : s.arbValid i = true := by
    by_contra invalid
    rw [item, if_neg invalid] at shown
    exact Option.some_ne_none x shown.symm
  rw [before.item_eq valid] at shown
  have lock : (s.next i).selLock = true := by
    show (if s.selLock then s.selLock && !(s.arbValid i && s.arbReady i)
      else s.arbValid i && !s.arbReady i) = true
    rw [valid, unready]
    cases s.selLock <;> rfl
  have same : (s.next i).metaSelD i' = s.metaSelD i := by
    rw [metaSelD, if_pos lock]
    rfl
  cases picked : s.metaSelD i with
  | true =>
    rw [picked, if_pos rfl] at shown
    have offered := valid
    rw [arbValid_eq, picked, if_pos rfl] at offered
    obtain ⟨valid', meta', sameW⟩ := wr_stays offered unready i' admitted'
    have write := before.wrMeta_write offered
    rw [item, arbValid_eq, arbMeta_eq, same, picked, if_pos rfl, if_pos rfl, valid', if_pos rfl,
      meta', write, if_pos rfl, sameW, ← shown, arbMeta_eq, picked, if_pos rfl]
  | false =>
    rw [picked, if_neg Bool.false_ne_true] at shown
    have offered := valid
    rw [arbValid_eq, picked, if_neg Bool.false_ne_true] at offered
    obtain ⟨valid', meta'⟩ := rd_stays offered unready i' admitted'
    have read := before.rdMeta_write offered
    rw [item, arbValid_eq, arbMeta_eq, same, picked, if_neg Bool.false_ne_true,
      if_neg Bool.false_ne_true, valid', if_pos rfl, meta', read, if_neg Bool.false_ne_true,
      ← shown, arbMeta_eq, picked, if_neg Bool.false_ne_true]

include admitted

/-- A taker that has the beat at the fork: it is the one left there. -/
theorem Inv.waits_of_served {k : Fin 3} (served : P.fork.served s.fork k = true) :
    s.arbValid i = true ∧ waits past Obs.itemLeft = s.item i := by
  have some := before.busy k served
  obtain ⟨x, kept⟩ := Option.isSome_iff_exists.mp some
  have shown := before.stays x kept i admitted
  rw [kept, shown]
  refine ⟨?_, rfl⟩
  by_contra invalid
  rw [item, if_neg invalid] at shown
  exact Option.some_ne_none x shown.symm

/-- A taker is fed what it takes. -/
theorem Inv.fed_next (k : Fin 3) :
    fed (past ++ [(machine P).obs s i]) (s.next i) k =
      fed past s k ++ if s.forkValid i k && s.forkReady i k then (s.item i).toList else [] := by
  rw [fed, fed, order_concat, served_next, waits_concat, forkValid_eq, List.append_assoc,
    List.append_assoc]
  refine congrArg _ ?_
  cases valid : s.arbValid i with
  | false =>
    have idle : P.fork.served s.fork k = false := by
      by_contra served
      rw [Bool.not_eq_false] at served
      rw [(before.waits_of_served admitted served).1] at valid
      exact Bool.noConfusion valid
    have unready : s.arbReady i = false := by
      by_contra ready
      rw [Bool.not_eq_false] at ready
      rw [(arbReady_iff.mp ready).1] at valid
      exact Bool.noConfusion valid
    rw [unready, idle]
    rfl
  | true =>
    cases ready : s.arbReady i with
    | true =>
      cases served : P.fork.served s.fork k with
      | true =>
        rw [(before.waits_of_served admitted served).2]
        simp
      | false =>
        have taken := ((arbReady_iff.mp ready).2 k).resolve_left (by
          rw [served]
          exact Bool.false_ne_true)
        rw [taken]
        simp
    | false =>
      have kept : ((machine P).obs s i).itemLeft = s.item i :=
        if_neg (Bool.eq_false_iff.mp ready)
      rw [kept]
      cases served : P.fork.served s.fork k with
      | true =>
        rw [(before.waits_of_served admitted served).2]
        simp
      | false =>
        cases s.forkReady i k <;> rfl

/-- A request goes out for each beat. -/
theorem Inv.requests_next : requests (past ++ [(machine P).obs s i]) =
    (fed (past ++ [(machine P).obs s i]) (s.next i) 0).map requestOf := by
  rw [before.fed_next admitted, requests_concat, List.map_append, before.requests_eq]
  refine congrArg _ ?_
  show (if s.qValid i && i.qReady then _ else _) =
    (if s.qValid i && i.qReady then _ else _ : List (Item P)).map requestOf
  cases hs : s.qValid i && i.qReady with
  | false => rfl
  | true =>
    have valid : s.arbValid i = true := by
      rw [Bool.and_eq_true, qValid, forkValid_eq, Bool.and_eq_true] at hs
      exact hs.1.1
    have kind := before.arbMeta_write valid
    rw [if_pos rfl, if_pos rfl, before.item_eq valid, Option.toList_some, List.map_singleton,
      requestOf]
    cases picked : s.metaSelD i with
    | true => rfl
    | false =>
      rw [picked] at kind
      exact congrArg (fun a => [a]) (q_read kind _ _)

/-- The side queues show what is fed and not answered. -/
theorem Inv.metas_shown :
    P.metaBuf.shown P.metaBuf.contents s.metaBuf (s.metaValid i) (s.arbMeta i) =
      ((fed (past ++ [(machine P).obs s i]) (s.next i) 1).map Prod.fst).drop
        (responses past).length := by
  have enough := before.enough 1 (by decide)
  rw [before.fed_next admitted, List.map_append,
    List.drop_append_of_le_length (by rw [List.length_map]; exact enough), ← before.metas,
    Fall.shown]
  refine congrArg _ ?_
  show (if s.metaValid i && s.metaReady then _ else _) =
    (if s.metaValid i && s.metaReady then _ else _ : List (Item P)).map Prod.fst
  cases hs : s.metaValid i && s.metaReady with
  | false => rfl
  | true =>
    have valid : s.arbValid i = true := by
      rw [Bool.and_eq_true, metaValid, forkValid_eq, Bool.and_eq_true] at hs
      exact hs.1.1
    rw [before.item_eq valid]
    rfl

theorem Inv.sels_shown :
    P.selBuf.shown P.selBuf.contents s.selBuf (s.selValid i) (selOf (s.arbMeta i)) =
      ((fed (past ++ [(machine P).obs s i]) (s.next i) 2).map fun x => selOf x.1).drop
        (responses past).length := by
  have enough := before.enough 2 (by decide)
  rw [before.fed_next admitted, List.map_append,
    List.drop_append_of_le_length (by rw [List.length_map]; exact enough), ← before.sels,
    Fall.shown]
  refine congrArg _ ?_
  show (if s.selValid i && s.selReady then _ else _) =
    (if s.selValid i && s.selReady then _ else _ : List (Item P)).map _
  cases hs : s.selValid i && s.selReady with
  | false => rfl
  | true =>
    have valid : s.arbValid i = true := by
      rw [Bool.and_eq_true, selValid, forkValid_eq, Bool.and_eq_true] at hs
      exact hs.1.1
    rw [before.item_eq valid]
    rfl

/-- A queue that shows something has been fed more than is answered. -/
theorem Inv.metaBufValid_iff : s.metaBufValid i = true ↔
    (responses past).length < (fed (past ++ [(machine P).obs s i]) (s.next i) 1).length := by
  rw [metaBufValid, P.metaBuf.lawful.valid_eq _ _ (s.arbMeta i), before.metas_shown admitted,
    Bool.not_eq_true', ← Bool.not_eq_true, List.isEmpty_iff, List.drop_eq_nil_iff, List.length_map,
    Nat.not_le]

theorem Inv.selBufValid_iff : s.selBufValid i = true ↔
    (responses past).length < (fed (past ++ [(machine P).obs s i]) (s.next i) 2).length := by
  rw [selBufValid, P.selBuf.lawful.valid_eq _ _ (selOf (s.arbMeta i)), before.sels_shown admitted,
    Bool.not_eq_true', ← Bool.not_eq_true, List.isEmpty_iff, List.drop_eq_nil_iff, List.length_map,
    Nat.not_le]

end Step

/-- Two takers that have a beat have the same one. -/
theorem fed_agree (past : List (Obs P)) (s : FromAxi P) {j k : Fin 3} {n : Nat}
    (first : n < (fed past s j).length) (second : n < (fed past s k).length) :
    (fed past s j)[n]? = (fed past s k)[n]? := by
  rw [fed] at first second ⊢
  rw [fed]
  cases servedJ : P.fork.served s.fork j <;> cases servedK : P.fork.served s.fork k
  · rfl
  · rw [servedJ, if_neg Bool.false_ne_true, List.append_nil] at first
    rw [if_neg Bool.false_ne_true, List.append_nil, List.getElem?_append_left first]
  · rw [servedK, if_neg Bool.false_ne_true, List.append_nil] at second
    rw [if_neg Bool.false_ne_true, List.append_nil, List.getElem?_append_left second]
  · rfl

/-- One more answer pairs up with the next beat. -/
theorem zip_concat {α β : Type} {xs : List α} {ps : List β} {x : α}
    (next : xs[ps.length]? = some x) (p : β) : xs.zip (ps ++ [p]) = xs.zip ps ++ [(x, p)] := by
  induction ps generalizing xs with
  | nil =>
    cases xs with
    | nil => exact absurd next.symm (Option.some_ne_none x)
    | cons y xs =>
      obtain rfl : y = x := Option.some.inj next
      show (y, p) :: xs.zip [] = (y :: xs).zip [] ++ [(y, p)]
      rw [List.zip_nil_right, List.zip_nil_right]
      rfl
  | cons q ps ih =>
    cases xs with
    | nil => exact absurd next.symm (Option.some_ne_none x)
    | cons y xs =>
      rw [List.length_cons, List.getElem?_cons_succ] at next
      rw [List.cons_append, List.zip_cons_cons, ih next]
      rfl

/-- More beats than answers change no pair. -/
theorem zip_more {α β : Type} {xs : List α} {ps : List β} (enough : ps.length ≤ xs.length)
    (more : List α) : (xs ++ more).zip ps = xs.zip ps := by
  induction ps generalizing xs with
  | nil => rw [List.zip_nil_right, List.zip_nil_right]
  | cons q ps ih =>
    cases xs with
    | nil => exact absurd enough (Nat.not_succ_le_zero _)
    | cons x xs =>
      rw [List.cons_append, List.zip_cons_cons, List.zip_cons_cons,
        ih (Nat.le_of_succ_le_succ enough)]

section Step

variable {past : List (Obs P)} {s : FromAxi P} {i : FromAxiIn P}
  (before : Inv past s) (admitted : steady past s i)

include before admitted

/-- A response that is done with is for a beat that both queues show. -/
theorem Inv.shown_of_ready (ready : s.memJoinReady i = true) {k : Fin 3} (queue : k ≠ 0) :
    (responses past).length < (fed (past ++ [(machine P).obs s i]) (s.next i) k).length := by
  obtain ⟨sel, valid, _⟩ := memJoinReady_iff.mp ready
  rw [memJoinValid_eq, Bool.and_eq_true] at valid
  match k with
  | 0 => exact absurd rfl queue
  | 1 => exact (before.metaBufValid_iff admitted).mp valid.1
  | 2 => exact (before.selBufValid_iff admitted).mp sel

/-- The side queues keep what is not answered. -/
theorem Inv.metas_next : P.metaBuf.contents (s.next i).metaBuf =
    ((fed (past ++ [(machine P).obs s i]) (s.next i) 1).map Prod.fst).drop
      (responses (past ++ [(machine P).obs s i])).length := by
  have after : P.metaBuf.contents (s.next i).metaBuf = _ :=
    P.metaBuf.lawful.next s.metaBuf (s.metaValid i) (s.arbMeta i) (s.metaBufReady i)
  rw [after, before.metas_shown admitted, metaBufReady_eq, responses_concat]
  cases s.memJoinReady i with
  | false => rw [if_neg Bool.false_ne_true, if_neg Bool.false_ne_true, List.append_nil]
  | true => rw [if_pos rfl, if_pos rfl, List.tail_drop, List.length_append, List.length_singleton]

theorem Inv.sels_next : P.selBuf.contents (s.next i).selBuf =
    ((fed (past ++ [(machine P).obs s i]) (s.next i) 2).map fun x => selOf x.1).drop
      (responses (past ++ [(machine P).obs s i])).length := by
  have after : P.selBuf.contents (s.next i).selBuf = _ :=
    P.selBuf.lawful.next s.selBuf (s.selValid i) (selOf (s.arbMeta i)) (s.selBufReady i)
  rw [after, before.sels_shown admitted, selBufReady_eq, responses_concat]
  cases s.memJoinReady i with
  | false => rw [if_neg Bool.false_ne_true, if_neg Bool.false_ne_true, List.append_nil]
  | true => rw [if_pos rfl, if_pos rfl, List.tail_drop, List.length_append, List.length_singleton]

omit admitted in
theorem Inv.room_next : (P.metaBuf.contents (s.next i).metaBuf).length ≤ 1 + P.BufDepth := by
  have after : P.metaBuf.contents (s.next i).metaBuf = _ :=
    P.metaBuf.lawful.next s.metaBuf (s.metaValid i) (s.arbMeta i) (s.metaBufReady i)
  have shown : (P.metaBuf.shown P.metaBuf.contents s.metaBuf (s.metaValid i) (s.arbMeta i)).length ≤
      1 + P.BufDepth := by
    have fits := before.room
    have space := P.metaBuf.lawful.ready_eq s.metaBuf
    rw [Fall.shown, List.length_append]
    cases pushed : s.metaValid i && P.metaBuf.ready s.metaBuf with
    | false => exact fits
    | true =>
      rw [Bool.and_eq_true, space, decide_eq_true_iff] at pushed
      exact pushed.2
  rw [after]
  cases s.metaBufReady i with
  | false => exact shown
  | true =>
    rw [if_pos rfl, List.length_tail]
    omega

theorem Inv.enough_next {k : Fin 3} (queue : k ≠ 0) :
    (responses (past ++ [(machine P).obs s i])).length ≤
      (fed (past ++ [(machine P).obs s i]) (s.next i) k).length := by
  rw [responses_concat]
  cases ready : s.memJoinReady i with
  | false =>
    have enough := before.enough k queue
    rw [before.fed_next admitted, if_neg Bool.false_ne_true, List.append_nil, List.length_append]
    omega
  | true =>
    have shown := before.shown_of_ready admitted ready queue
    rw [if_pos rfl, List.length_append, List.length_singleton]
    exact shown

/-- A channel that has the response at hand has the one on offer. -/
theorem Inv.waits_of_dynServed {channel : Fin 2}
    (served : P.forkDynamic.served s.forkDynamic channel = true) :
    i.pValid = true ∧ waits past Obs.responseLeft = some i.p := by
  obtain ⟨some, _⟩ := before.dyn channel served
  obtain ⟨p, kept⟩ := Option.isSome_iff_exists.mp some
  obtain ⟨valid, same⟩ := admitted.2.2.2 p kept
  rw [kept, same]
  exact ⟨valid, rfl⟩

/-- A channel is handed the response newly, or has had it. -/
theorem Inv.answered_next (channel : Fin 2) :
    answered (past ++ [(machine P).obs s i]) (s.next i) channel =
      answered past s channel ++ if newly s i channel then [i.p] else [] := by
  rw [answered, answered, responses_concat, dynServed_next, waits_concat, newly, List.append_assoc,
    List.append_assoc]
  refine congrArg _ ?_
  have left : ((machine P).obs s i).responseLeft =
      if i.pValid && !s.memJoinReady i then some i.p else none := by
    rw [← pReady_eq]
    rfl
  rw [left]
  cases served : P.forkDynamic.served s.forkDynamic channel with
  | true =>
    obtain ⟨valid, kept⟩ := before.waits_of_dynServed admitted served
    rw [kept, valid]
    cases s.memJoinReady i <;> simp
  | false =>
    cases ready : s.memJoinReady i with
    | true =>
      obtain ⟨sel, valid, all⟩ := memJoinReady_iff.mp ready
      have taken := (all channel).resolve_left (by
        rw [served]
        exact Bool.false_ne_true)
      rw [sel, valid, taken]
      rfl
    | false =>
      cases sel : s.selBufValid i with
      | false => simp
      | true =>
        cases valid : s.memJoinValid i with
        | false => simp
        | true =>
          rw [memJoinValid_eq, Bool.and_eq_true] at valid
          rw [valid.2]
          cases !s.selIn i channel || readyIn i channel <;> simp

/-- What a channel is handed newly is the next response, for the next beat. -/
theorem Inv.newly_pairs {channel : Fin 2} (handed : newly s i channel = true) :
    (answered past s channel).length = (responses past).length ∧
      ∃ x, (fed (past ++ [(machine P).obs s i]) (s.next i) 1)[(responses past).length]? = some x ∧
        s.metaBufO i = x.1 ∧ s.selBufO i = selOf x.1 := by
  rw [newly, Bool.and_eq_true, Bool.and_eq_true, Bool.and_eq_true, Bool.not_eq_true'] at handed
  obtain ⟨⟨⟨sel, valid⟩, unserved⟩, _⟩ := handed
  rw [memJoinValid_eq, Bool.and_eq_true] at valid
  have metaShown := (before.metaBufValid_iff admitted).mp valid.1
  have selShown := (before.selBufValid_iff admitted).mp sel
  refine ⟨?_, ?_⟩
  · rw [answered, unserved, if_neg Bool.false_ne_true, List.append_nil]
  · have agree := fed_agree _ _ metaShown selShown
    obtain ⟨x, found⟩ : ∃ x, (fed (past ++ [(machine P).obs s i]) (s.next i) 1)[
        (responses past).length]? = some x := ⟨_, List.getElem?_eq_getElem metaShown⟩
    refine ⟨x, found, ?_, ?_⟩
    · apply P.metaBuf.lawful.data_head s.metaBuf (s.metaValid i) (s.arbMeta i) x.1
      rw [before.metas_shown admitted, ← List.map_drop, List.drop_eq_getElem?_toList_append, found]
      rfl
    · apply P.selBuf.lawful.data_head s.selBuf (s.selValid i) (selOf (s.arbMeta i)) (selOf x.1)
      rw [before.sels_shown admitted, ← List.map_drop, List.drop_eq_getElem?_toList_append,
        ← agree, found]
      rfl

/-- Answers are for beats the queues have had. -/
theorem Inv.answered_le (channel : Fin 2) :
    (answered past s channel).length ≤ (fed past s 1).length := by
  rw [answered]
  cases served : P.forkDynamic.served s.forkDynamic channel with
  | false =>
    rw [if_neg Bool.false_ne_true, List.append_nil]
    exact before.enough 1 (by decide)
  | true =>
    have shown := (before.dyn channel served).2 1 (by decide)
    rw [(before.waits_of_dynServed admitted served).2, if_pos rfl, List.length_append]
    exact shown

/-- **Answers pair up with beats.** -/
theorem Inv.zip_next {β : Type} (channel : Fin 2) (out : Item P → P.Rsp → Option β)
    (made : β) (makes : ∀ x : Item P, s.metaBufO i = x.1 → s.selBufO i = selOf x.1 →
      out x i.p = if s.selIn i channel then some made else none) :
    ((fed (past ++ [(machine P).obs s i]) (s.next i) 1).zip
        (answered (past ++ [(machine P).obs s i]) (s.next i) channel)).filterMap
        (fun a => out a.1 a.2) =
      ((fed past s 1).zip (answered past s channel)).filterMap (fun a => out a.1 a.2) ++
        if s.rbValid i channel && readyIn i channel then [made] else [] := by
  have grown := zip_more (before.answered_le admitted channel)
    (if s.forkValid i 1 && s.forkReady i 1 then (s.item i).toList else [])
  rw [← before.fed_next admitted] at grown
  rw [before.answered_next admitted, beat_eq]
  cases handed : newly s i channel with
  | false =>
    rw [if_neg Bool.false_ne_true, List.append_nil, grown, Bool.false_and,
      if_neg Bool.false_ne_true, List.append_nil]
  | true =>
    obtain ⟨count, x, found, metaEq, selEq⟩ := before.newly_pairs admitted handed
    rw [← count] at found
    rw [if_pos rfl, zip_concat found, grown, List.filterMap_append, Bool.true_and]
    refine congrArg _ ?_
    rw [List.filterMap_cons, List.filterMap_nil, makes x metaEq selEq]
    cases s.selIn i channel <;> rfl

theorem Inv.dyn_next {channel : Fin 2}
    (served : P.forkDynamic.served (s.next i).forkDynamic channel = true) :
    (waits (past ++ [(machine P).obs s i]) Obs.responseLeft).isSome = true ∧
      ∀ j, j ≠ 0 → (responses (past ++ [(machine P).obs s i])).length <
        (fed (past ++ [(machine P).obs s i]) (s.next i) j).length := by
  rw [dynServed_next] at served
  cases ready : s.memJoinReady i with
  | true =>
    rw [ready] at served
    exact Bool.noConfusion served
  | false =>
    have left : ((machine P).obs s i).responseLeft =
        if i.pValid && !s.memJoinReady i then some i.p else none := by
      rw [← pReady_eq]
      rfl
    rw [ready, if_neg Bool.false_ne_true, Bool.or_eq_true] at served
    rw [waits_concat, left, responses_concat, ready, if_neg Bool.false_ne_true, List.append_nil]
    rcases served with already | now
    · rw [(before.waits_of_dynServed admitted already).1]
      refine ⟨rfl, fun j queue => ?_⟩
      have shown := (before.dyn channel already).2 j queue
      rw [before.fed_next admitted, List.length_append]
      omega
    · rw [Bool.and_eq_true, Bool.and_eq_true] at now
      obtain ⟨⟨sel, valid⟩, _⟩ := now
      rw [memJoinValid_eq, Bool.and_eq_true] at valid
      rw [valid.2]
      refine ⟨rfl, fun j queue => ?_⟩
      match j with
      | 0 => exact absurd rfl queue
      | 1 => exact (before.metaBufValid_iff admitted).mp valid.1
      | 2 => exact (before.selBufValid_iff admitted).mp sel

/-- **The step lemma.** -/
theorem Inv.next : Inv (past ++ [(machine P).obs s i]) (s.next i) where
  rdKind := OfKind.next _ _ _ _ _ before.rdKind _
  wrKind := OfKind.next _ _ _ _ _ before.wrKind _
  reads := before.reads_next
  writes := before.writes_next
  data := before.data_next
  stays _ kept i' admitted' := before.stays_next kept i' admitted'
  busy k served := by
    rw [served_next] at served
    rw [waits_concat]
    cases ready : s.arbReady i with
    | true =>
      rw [ready] at served
      exact Bool.noConfusion served
    | false =>
      have kept : ((machine P).obs s i).itemLeft = s.item i :=
        if_neg (Bool.eq_false_iff.mp ready)
      rw [ready, if_neg Bool.false_ne_true, Bool.or_eq_true] at served
      have valid : s.arbValid i = true := by
        rcases served with already | now
        · exact (before.waits_of_served admitted already).1
        · rw [Bool.and_eq_true] at now
          exact now.1
      rw [kept, before.item_eq valid]
      rfl
  requests_eq := before.requests_next admitted
  metas := before.metas_next admitted
  sels := before.sels_next admitted
  enough _ queue := before.enough_next admitted queue
  room := before.room_next
  dyn _ served := before.dyn_next admitted served
  rBeats_eq := by
    rw [rBeats_concat, before.rBeats_eq]
    symm
    apply before.zip_next admitted 0
    intro x metaEq selEq
    rw [rOf, selIn, if_pos rfl, selEq, metaEq]
    rfl
  bBeats_eq := by
    rw [bBeats_concat, before.bBeats_eq]
    symm
    apply before.zip_next admitted 1
    intro x metaEq selEq
    have second : s.selIn i 1 = (s.selBufO i).1 := rfl
    rw [bOf, second, selEq, metaEq]
    rfl

end Step

/-! ## The result -/

section Progress

variable {past : List (Obs P)} {s : FromAxi P} (inv : Inv past s) (i : FromAxiIn P)

include inv

/-- With room in the queues, a beat waits for the request channel only. -/
theorem Inv.moves (valid : s.arbValid i = true) (ready : i.qReady = true)
    (few : (order past).length < (responses past).length + (1 + P.BufDepth)) :
    s.arbReady i = true := by
  refine arbReady_iff.mpr ⟨valid, fun k => ?_⟩
  cases served : P.fork.served s.fork k with
  | true => exact Or.inl rfl
  | false =>
    right
    match k with
    | 0 => exact ready
    | 1 =>
      show P.metaBuf.ready s.metaBuf = true
      have stored : (P.metaBuf.contents s.metaBuf).length =
          (order past).length - (responses past).length := by
        rw [inv.metas, fed, served, if_neg Bool.false_ne_true, List.append_nil,
          List.length_drop, List.length_map]
      rw [P.metaBuf.lawful.ready_eq, decide_eq_true_iff]
      omega
    | 2 =>
      show P.selBuf.ready s.selBuf = true
      have stored : (P.selBuf.contents s.selBuf).length =
          (order past).length - (responses past).length := by
        rw [inv.sels, fed, served, if_neg Bool.false_ne_true, List.append_nil,
          List.length_drop, List.length_map]
      rw [P.selBuf.lawful.ready_eq, decide_eq_true_iff]
      omega

/-- A response to a beat done with waits for its channels only. -/
theorem Inv.hands (valid : i.pValid = true) (rReady : i.rReady = true) (bReady : i.bReady = true)
    (owed : (responses past).length < (order past).length) : s.pReady i = true := by
  have fedMore : ∀ k, (responses past).length < (fed past s k).length := by
    intro k
    rw [fed, List.length_append]
    omega
  have metaValid : s.metaBufValid i = true := by
    rw [metaBufValid, P.metaBuf.lawful.valid_eq _ _ (s.arbMeta i), Fall.shown, inv.metas,
      Bool.not_eq_true', ← Bool.not_eq_true, List.isEmpty_iff]
    intro none
    have more := fedMore 1
    have empty := (List.append_eq_nil_iff.mp none).1
    rw [List.drop_eq_nil_iff, List.length_map] at empty
    omega
  have selValid : s.selBufValid i = true := by
    rw [selBufValid, P.selBuf.lawful.valid_eq _ _ (selOf (s.arbMeta i)), Fall.shown, inv.sels,
      Bool.not_eq_true', ← Bool.not_eq_true, List.isEmpty_iff]
    intro none
    have more := fedMore 2
    have empty := (List.append_eq_nil_iff.mp none).1
    rw [List.drop_eq_nil_iff, List.length_map] at empty
    omega
  rw [pReady_eq]
  refine memJoinReady_iff.mpr ⟨selValid, ?_, fun k => Or.inr ?_⟩
  · rw [memJoinValid_eq, metaValid, valid]
    rfl
  · have taken : readyIn i k = true := by
      rw [readyIn, rReady, bReady]
      exact ite_self _
    rw [taken, Bool.or_true]

end Progress

theorem inv_reached {P : FromAxiParts} {past : List (Obs P)} {s : FromAxi P}
    (reached : (machine P).Reaches steady (init P) past s) : Inv past s :=
  reached.invariant Inv inv_init fun _ _ _ _ before admitted => before.next admitted

/-- A bridge of 8 bits with a response on its way. -/
abbrev bytes : FromAxiParts where
  AxiAddrWidth := 8
  AddrWidth := 8
  DataWidth := 8
  IdWidth := 1
  BufDepth := 1
  axi := .amba
  axMux := .apply 2
  fork := .ofFlags 3
  selBuf := .ofList _ _
  metaBuf := .ofList _ _
  join := .all 2
  forkDynamic := .ofFlags 2

/-- A burst of two reads from an unaligned address against a single write. -/
def burstAndWrite : List (FromAxiIn bytes) :=
  let ar : bytes.Ar := { addr := 5, id := 1, len := 1, size := 1, qos := 0, lock := false }
  let aw : bytes.Aw := { addr := 9, id := 0, len := 0, size := 0, qos := 0, lock := false, atop := 0 }
  let w : bytes.W := { data := 7, strb := 1, last := true }
  let both : FromAxiIn bytes :=
    { arValid := true, ar := ar, awValid := true, aw := aw, wValid := true, w := w, rReady := true,
      bReady := true, qReady := true, pValid := false, p := ⟨3, false⟩ }
  let read : FromAxiIn bytes := { both with awValid := false, wValid := false, pValid := true }
  let rest : FromAxiIn bytes := { read with arValid := false }
  [both, read, rest, rest]

end FromAxi

end SnitchCluster.Reqrsp
