/-
# Core.Lsu -- the load/store unit and its consistency address queue

`snitch_lsu` as the integer core instantiates it: a request is passed on while
the load queue and the transaction queue have room, and only once the
consistency address queue (CAQ) knows of no colliding access offloaded to the
floating-point unit.  The queues are library cells; `LsuParts` takes them as
parameters.
-/
import Mathlib.Data.Nat.Log
import SnitchCluster.Core.Package
import SnitchCluster.Theory.Cells

namespace SnitchCluster.Core

open Theory

/-- `$clog2(DataWidth/8)`: the width of a byte offset. -/
def Cfg.DataAlign (C : Cfg) : Nat := Nat.clog 2 (C.DataWidth / 8)

def LsSize.bits : LsSize → BitVec 2
  | .byte => 0
  | .halfWord => 1
  | .word => 2
  | .double => 3

/-- `laq_t`: what is remembered of a load until its answer. -/
structure Laq (C : Cfg) where
  tag : BitVec C.RegWidth
  signExt : Bool
  offset : BitVec C.DataAlign
  size : LsSize

/-- The cells of the unit: the load queue, the transaction queue (which keeps
whether a transaction was a write) and the CAQ. -/
structure LsuParts (C : Cfg) where
  laq : Fifo (Laq C)
  mem : Fifo Bool
  caq : IdQueue (C.CaqTagWidth + 1)

/-- Reference cells of the configured depths. -/
def LsuParts.ofList (C : Cfg) : LsuParts C where
  laq := Fifo.ofList C.NumIntOutstandingLoads ⟨0, false, 0, .byte⟩
  mem := Fifo.ofList C.NumIntOutstandingMem false
  caq := IdQueue.ofList _ C.CaqDepth

structure LsuState {C : Cfg} (P : LsuParts C) where
  laq : P.laq.State
  mem : P.mem.State
  caq : P.caq.State

def LsuState.init {C : Cfg} (P : LsuParts C) : LsuState P :=
  ⟨P.laq.init, P.mem.init, P.caq.init⟩

/-- The request channel. -/
structure LsuReq (C : Cfg) where
  qtag : BitVec C.RegWidth
  qwrite : Bool
  qsigned : Bool
  qaddr : BitVec C.AddrWidth
  qdata : BitVec C.DataWidth
  qsize : LsSize
  qamo : AmoOp
  qmcast : BitVec C.AddrWidth
  qvalid : Bool

/-- `caq_alters_mem`: a store, or an atomic. -/
def LsuReq.altersMem {C : Cfg} (r : LsuReq C) : Bool := r.qwrite || r.qamo != .amoNone

/-- The CAQ snoop channels. -/
structure CaqReq (C : Cfg) where
  qaddr : BitVec C.AddrWidth
  qwrite : Bool
  qvalid : Bool
  pvalid : Bool

/-- `data_rsp_i`, less the error flag nothing reads. -/
structure DataRsp (C : Cfg) where
  qReady : Bool
  pValid : Bool
  data : BitVec C.DataWidth

/-- `data_req_o.q`. -/
structure DataReq (C : Cfg) where
  write : Bool
  addr : BitVec C.AddrWidth
  mask : BitVec C.AddrWidth
  amo : AmoOp
  size : LsSize
  strb : BitVec (C.DataWidth / 8)
  data : BitVec C.DataWidth

namespace LsuState

variable {C : Cfg} {P : LsuParts C} (l : LsuState P)

/-! ## The consistency address queue -/

/-- The word-address bits a CAQ entry keeps. -/
def caqTag (C : Cfg) (addr : BitVec C.AddrWidth) : BitVec C.CaqTagWidth :=
  addr.extractLsb' C.DataAlign C.CaqTagWidth

/-- `{write, address tag}`. -/
def caqEntry (C : Cfg) (write : Bool) (addr : BitVec C.AddrWidth) :
    BitVec (C.CaqTagWidth + 1) :=
  (BitVec.ofBool write ++ caqTag C addr).setWidth (C.CaqTagWidth + 1)

/-- The check looks at the write flag only for requests that leave memory alone. -/
def caqMask (C : Cfg) (altersMem : Bool) : BitVec (C.CaqTagWidth + 1) :=
  (BitVec.ofBool (!altersMem) ++ BitVec.allOnes C.CaqTagWidth).setWidth (C.CaqTagWidth + 1)

/-- `caq_pass`: the request is known not to collide. -/
def caqPass (r : LsuReq C) : Bool :=
  P.caq.existsGrant l.caq r.qvalid &&
    !P.caq.existsO l.caq r.qvalid (caqMask C r.altersMem) (caqEntry C true r.qaddr)

/-- `caq_qready_o`. -/
def caqQready (pvalid : Bool) : Bool := !C.FP_EN || P.caq.grant l.caq pvalid

/-- `caq_empty_o`. -/
def caqEmpty : Bool := if C.FP_EN then P.caq.empty l.caq else C.caqEmptyUndriven

/-! ## Requests -/

/-- `lsu_postcaq_qvalid`. -/
def postcaqQvalid (r : LsuReq C) : Bool :=
  if C.FP_EN then l.caqPass r && r.qvalid else r.qvalid

/-- There is room to remember the transaction. -/
def room (r : LsuReq C) : Bool := (r.qwrite || !P.laq.full l.laq) && !P.mem.full l.mem

/-- `data_req_o.q_valid`. -/
def qValid (r : LsuReq C) : Bool :=
  l.postcaqQvalid r && (r.qwrite || !P.laq.full l.laq) && !P.mem.full l.mem

/-- `lsu_postcaq_qready`. -/
def postcaqQready (r : LsuReq C) (rsp : DataRsp C) : Bool :=
  !(l.qValid r && !rsp.qReady) && (r.qwrite || !P.laq.full l.laq) && !P.mem.full l.mem

/-- `lsu_qready_o`. -/
def qready (r : LsuReq C) (rsp : DataRsp C) : Bool :=
  if C.FP_EN then l.caqPass r && l.postcaqQready r rsp else l.postcaqQready r rsp

/-- `data_req_o.q`: the byte enables and the rotated data. -/
def dataReq (r : LsuReq C) : DataReq C :=
  let offset := (r.qaddr.extractLsb' 0 C.DataAlign).toNat
  let ones : BitVec (C.DataWidth / 8) :=
    match r.qsize with
    | .byte => 1
    | .halfWord => 3
    | .word => 15
    | .double => BitVec.allOnes _
  let wide : BitVec 64 := r.qdata.setWidth 64
  { write := r.qwrite
    addr := r.qaddr
    mask := r.qmcast
    amo := r.qamo
    size := r.qsize
    strb := if r.qsize = .double then ones else ones <<< offset
    data := (if offset < 8 then wide.rotateLeft (8 * offset) else wide).setWidth C.DataWidth }

/-! ## Responses -/

/-- `mem_out`: the oldest transaction was a write. -/
def memOut : Bool := P.mem.data l.mem

/-- `lsu_empty_o`. -/
def empty : Bool := P.mem.empty l.mem

def pvalid (rsp : DataRsp C) : Bool := rsp.pValid && !l.memOut

/-- `data_req_o.p_ready`. -/
def pReady (pready : Bool) : Bool := pready || l.memOut

def ptag : BitVec C.RegWidth := (P.laq.data l.laq).tag

/-- `lsu_pdata_o`, the answer shifted back and extended to 64 bits. -/
def ldResult (rsp : DataRsp C) : BitVec 64 :=
  let out := P.laq.data l.laq
  let shifted : BitVec 64 := (rsp.data >>> (8 * out.offset.toNat)).setWidth 64
  match out.size with
  | .byte => if out.signExt then (shifted.setWidth 8).signExtend 64
             else (shifted.setWidth 8).setWidth 64
  | .halfWord => if out.signExt then (shifted.setWidth 16).signExtend 64
                 else (shifted.setWidth 16).setWidth 64
  | .word => if out.signExt then (shifted.setWidth 32).signExtend 64
             else (shifted.setWidth 32).setWidth 64
  | .double => shifted

/-! ## The cycle -/

def next (r : LsuReq C) (q : CaqReq C) (rsp : DataRsp C) (pready : Bool) : LsuState P where
  laq := P.laq.next l.laq false
    (!r.qwrite && rsp.qReady && l.qValid r && !P.laq.full l.laq)
    { tag := r.qtag, signExt := r.qsigned, offset := r.qaddr.extractLsb' 0 C.DataAlign,
      size := r.qsize }
    (rsp.pValid && l.pReady pready && !l.memOut)
  mem := P.mem.next l.mem false (l.qValid r && rsp.qReady) r.qwrite
    (rsp.pValid && l.pReady pready)
  caq := if C.FP_EN then P.caq.next l.caq q.qvalid (caqEntry C q.qwrite q.qaddr) q.pvalid
         else l.caq

end LsuState

end SnitchCluster.Core
