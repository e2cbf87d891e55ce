/-
# Ssr.Indirector -- the index datapath of an indirect stream

`snitch_ssr_indirector` in its two variants.  An intersection slave takes indices
from the intersector, writes them back as packed words and emits a pointer for
each; every other stream fetches index words, serializes them and emits a pointer
for each index, an intersection master only for those the intersector lets pass.

The two variants share the byte counter, the index counter and the pointer
arithmetic.  Their buffers are library cells.
-/
import SnitchCluster.Ssr.Config
import SnitchCluster.Ssr.Credit
import SnitchCluster.Theory.Cells

namespace SnitchCluster.Ssr

open Theory

variable {C : Cfg}

/-! ## Ports -/

/-- `idx_rsp_i`. -/
structure IdxRsp (C : Cfg) where
  qReady : Bool := false
  pValid : Bool := false
  data : BitVec C.DataWidth := 0

/-- `isect_slv_rsp_i`. -/
structure IsectSlvRsp (C : Cfg) where
  idx : BitVec C.IndexWidth := 0
  done : Bool := false
  valid : Bool := false

/-- `isect_mst_rsp_i`. -/
structure IsectMstRsp where
  zero : Bool := false
  skip : Bool := false
  done : Bool := false
  ready : Bool := false

/-- `isect_mst_req_o`. -/
structure IsectMstReq (C : Cfg) where
  merge : Bool := false
  slvEna : Bool := false
  idx : BitVec C.IndexWidth := 0
  done : Bool := false
  valid : Bool := false

/-- `isect_slv_req_o`. -/
structure IsectSlvReq where
  ena : Bool := false
  ready : Bool := false

/-- `idx_req_o`. -/
structure IdxReq (C : Cfg) where
  qValid : Bool
  addr : BitVec C.PointerWidth
  write : Bool
  strb : BitVec C.WordBytes
  data : BitVec C.DataWidth

/-- The inputs of the indirector, but for the ready of its output. -/
structure IndirIn (C : Cfg) where
  idxRsp : IdxRsp C
  isectSlvRsp : IsectSlvRsp C
  isectMstRsp : IsectMstRsp
  cfgOffsNext : BitVec C.BytecntWidth
  cfgDone : Bool
  cfgIndir : Bool
  cfgIsectSlv : Bool
  cfgIsectMst : Bool
  cfgIsectSlvEna : Bool
  cfgSize : BitVec C.SizeWidth
  cfgBase : BitVec C.PointerWidth
  cfgShift : BitVec C.ShiftWidth
  cfgMerge : Bool
  natitPointer : BitVec C.PointerWidth
  natitDone : Bool
  natitBoundoffs : BitVec C.BytecntWidth

/-- The cells: the index word queue of a fetching stream; the input stage and the
queue of done flags of an intersection slave. -/
structure IndirParts (C : Cfg) where
  idxFifo : LawfulFifo (BitVec C.DataWidth) C.IndexCredits
  slvSpill : LawfulSpill (BitVec C.IndexWidth × Bool) C.IsectSlaveSpill
  doneFifo : LawfulFifo Bool C.IsectSlaveCredits

def IndirParts.ofList (C : Cfg) : IndirParts C := ⟨.ofList _ 0, .ofList _, .ofList _ false⟩

/-- The registers. -/
structure Indirector (P : IndirParts C) where
  idxBytecnt : BitVec C.BytecntWidth
  idxIsect : BitVec C.IndexWidth
  -- an intersection slave
  idxData : BitVec C.DataWidth
  idxStrb : BitVec C.WordBytes
  idxWordValid : Bool
  donePending : Bool
  isectCnt : BitVec C.IndexWidth
  cfgIdxIsect : BitVec C.IndexWidth
  slvSpill : P.slvSpill.State
  doneFifo : P.doneFifo.State
  -- a fetching stream
  idxFifo : P.idxFifo.State
  idxCredit : Credit C.IndexCredits
  idxInflight : Credit C.IndexCredits
  isectMstDomp : Bool
  isectMstDom : Bool
  isectMstDoi : Bool
  isectMstBlk : Bool
  isectIdxLockin : Bool

def Indirector.init (P : IndirParts C) : Indirector P where
  idxBytecnt := 0
  idxIsect := 0
  idxData := 0
  idxStrb := 0
  idxWordValid := false
  donePending := false
  isectCnt := 0
  cfgIdxIsect := 0
  slvSpill := P.slvSpill.init
  doneFifo := P.doneFifo.init
  idxFifo := P.idxFifo.init
  idxCredit := Credit.initial _ false
  idxInflight := Credit.initial _ true
  isectMstDomp := false
  isectMstDom := false
  isectMstDoi := false
  isectMstBlk := false
  isectIdxLockin := false

/-- A register with a load enable and a clear, the clear first (`FFLARNC`). -/
def ffLoadClear {α : Type} (q d : α) (load clear : Bool) (reset : α) : α :=
  if clear then reset else if load then d else q

namespace Indirector

variable {P : IndirParts C} (n : Indirector P) (i : IndirIn C) (memReady : Bool)

/-! ## Shared arithmetic -/

/-- `idx_bytecnt_next`. -/
def bytecntNext : BitVec C.BytecntWidth := n.idxBytecnt + BitVec.ofNat _ (1 <<< i.cfgSize.toNat)

/-- `idx_bytecnt_rovr`: the byte counter rolls over. -/
def bytecntRovr : Bool := n.bytecntNext i == 0

/-- A word of which the lowest index of the configured size is all ones. -/
def indexMask (i : IndirIn C) : BitVec C.DataWidth :=
  ~~~(BitVec.allOnes _ <<< (8 <<< i.cfgSize.toNat))

/-- `idx_addr`: whole, aligned words are fetched. -/
def idxAddr (i : IndirIn C) : BitVec C.PointerWidth :=
  i.natitPointer &&& (BitVec.allOnes _ <<< C.BytecntWidth)

/-! ## Fetching indices -/

/-- `natit_ena`. -/
def natitEna : Bool :=
  i.cfgIndir && n.idxCredit.left && !n.isectMstBlk && !i.natitDone

/-- `idx_req_o.q_valid`. -/
def idxQvalid : Bool :=
  if C.IsectSlave then n.idxWordValid else n.natitEna i || n.isectIdxLockin

def idxQhs : Bool := n.idxQvalid i && i.idxRsp.qReady

/-- `natit_ready_o`. -/
def natitReady : Bool :=
  if C.IsectSlave then n.idxQhs i else n.natitEna i && i.idxRsp.qReady

/-- The byte offsets of the first index and of the bound, with their carry. -/
def natitSum (i : IndirIn C) : BitVec (C.BytecntWidth + 1) :=
  (i.natitPointer.setWidth C.BytecntWidth).setWidth (C.BytecntWidth + 1) +
    i.natitBoundoffs.setWidth (C.BytecntWidth + 1)

/-- `natit_extraword_o`: the index array reaches into one more word. -/
def natitExtraword (i : IndirIn C) : Bool := !C.IsectSlave && (natitSum i).msb

/-- `last_word`. -/
def lastWord : Bool := n.idxCredit.crit && i.natitDone

/-- `idx_ser_out`. -/
def idxSerOut : BitVec C.IndexWidth :=
  ((P.idxFifo.data n.idxFifo >>> (8 * n.idxBytecnt.toNat)) &&& indexMask i).setWidth _

def idxSerValid : Bool := !P.idxFifo.empty n.idxFifo

/-- The stream is an intersection master in this job. -/
def master (i : IndirIn C) : Bool := C.IsectMaster && i.cfgIsectMst

/-- `isect_mst_req_o`. -/
def isectMstReq : IsectMstReq C :=
  if !C.IsectSlave && master i then
    { merge := i.cfgMerge
      slvEna := i.cfgIsectSlvEna
      idx := n.idxSerOut i
      done := n.isectMstDoi
      valid := n.isectMstDoi || (n.idxSerValid && memReady) }
  else {}

def isectMstHs : Bool := C.IsectMaster && (n.isectMstReq i memReady).valid && i.isectMstRsp.ready

/-! ## Indices from the intersector -/

def slvReady : Bool :=
  !(n.idxWordValid && !i.idxRsp.qReady) && !P.doneFifo.full n.doneFifo && !n.donePending

/-- `isect_slv_req_o`. -/
def isectSlvReq : IsectSlvReq :=
  if C.IsectSlave then
    { ena := !(n.donePending || i.cfgDone) && i.cfgIsectSlv
      ready := P.slvSpill.ready n.slvSpill (n.slvReady i) }
  else {}

/-- The handshake before the timing cut. -/
def slvUpHs : Bool :=
  i.isectSlvRsp.valid && P.slvSpill.ready n.slvSpill (n.slvReady i)

def slvElem : BitVec C.IndexWidth × Bool :=
  P.slvSpill.data n.slvSpill (i.isectSlvRsp.idx, i.isectSlvRsp.done)

/-- `isect_slv_hs`. -/
def slvHs : Bool := P.slvSpill.valid n.slvSpill i.isectSlvRsp.valid && n.slvReady i

def doneOut : Bool := P.doneFifo.data n.doneFifo

def doneOutValid : Bool := !P.doneFifo.empty n.doneFifo

/-! ## The output -/

/-- `mem_valid_o`. -/
def memValid : Bool :=
  if C.IsectSlave then n.doneOutValid
  else if master i then
    n.isectMstDom ||
      (n.isectMstHs i memReady && !i.isectMstRsp.skip && !i.isectMstRsp.done)
  else n.idxSerValid

/-- `mem_zero_o`. -/
def memZero : Bool := !C.IsectSlave && master i && i.isectMstRsp.zero

/-- `mem_done_o`: the job ends without a pointer. -/
def memDone : Bool :=
  if C.IsectSlave then n.doneOut else master i && n.isectMstDom

def memSkip : Bool :=
  !C.IsectSlave && master i && n.isectMstHs i memReady && i.isectMstRsp.skip

def memHs : Bool := n.memValid i memReady && memReady

/-- `idx_bytecnt_ena`. -/
def bytecntEna : Bool :=
  if C.IsectSlave then n.slvHs i && !(n.slvElem i).2
  else (n.memHs i memReady && !memZero i && !n.memDone i) || n.memSkip i memReady

/-- `idx_fifo_pop`: at the last index of a word, or of the job. -/
def idxFifoPop : Bool :=
  n.bytecntEna i memReady &&
    if n.lastWord i then n.idxBytecnt == (natitSum i).setWidth C.BytecntWidth
    else n.bytecntRovr i

/-- `idx_ser_last`. -/
def idxSerLast : Bool := n.lastWord i && n.idxFifoPop i memReady && !n.isectMstBlk

/-- `mem_last_o`. -/
def memLast : Bool := !C.IsectSlave && !master i && n.idxSerLast i memReady

/-- `mem_idx`. -/
def memIdx : BitVec C.IndexWidth :=
  if C.IsectSlave || master i then n.idxIsect else n.idxSerOut i

/-- `mem_pointer_o`: shift and add. -/
def memPointer : BitVec C.PointerWidth :=
  i.cfgBase + (((n.memIdx i).setWidth _ <<< C.BytecntWidth) <<< i.cfgShift.toNat)

/-- `idx_req_o`. -/
def idxReq : IdxReq C where
  qValid := n.idxQvalid i
  addr := idxAddr i
  write := C.IsectSlave
  strb := if C.IsectSlave then n.idxStrb else 0
  data := if C.IsectSlave then n.idxData else 0

/-! ## The cycle -/

/-- `isect_mst_cln_init`: the master starts to clean up. -/
def clnInit : Bool :=
  n.isectMstHs i memReady &&
    (i.isectMstRsp.done || (!i.cfgMerge && n.idxSerLast i memReady))

def idxIsectEna : Bool :=
  if C.IsectSlave then n.doneOutValid && memReady && !n.doneOut
  else master i && n.bytecntEna i memReady

def idxIsectNext : BitVec C.IndexWidth :=
  if C.IsectMaster || C.IsectSlave then
    if i.cfgDone then 0 else if n.idxIsectEna i memReady then n.idxIsect + 1 else n.idxIsect
  else 0

def idxBytecntNext : BitVec C.BytecntWidth :=
  if i.cfgDone then i.cfgOffsNext
  else if n.bytecntEna i memReady then n.bytecntNext i
  else n.idxBytecnt

/-- An intersection slave: coalescing, the done flags and the element counter. -/
def nextSlave : Indirector P :=
  let shift := 8 * n.idxBytecnt.toNat
  let mask := indexMask i <<< shift
  let hs := n.slvHs i
  let done := (n.slvElem i).2
  let strbBase : BitVec C.WordBytes := ~~~(BitVec.allOnes _ <<< (1 <<< i.cfgSize.toNat))
  let swap := n.slvUpHs i && i.isectSlvRsp.done
  { n with
    idxBytecnt := n.idxBytecntNext i memReady
    idxIsect := n.idxIsectNext i memReady
    idxData :=
      if n.bytecntEna i memReady then
        (n.idxData &&& ~~~mask) ||| (((n.slvElem i).1.setWidth _ <<< shift) &&& mask)
      else n.idxData
    idxStrb :=
      if n.bytecntEna i memReady then
        if n.idxBytecnt == 0 then strbBase else n.idxStrb ||| strbBase <<< n.idxBytecnt.toNat
      else n.idxStrb
    idxWordValid := ffLoadClear n.idxWordValid
      (n.bytecntRovr i || (n.idxBytecnt != 0 && done)) hs (n.idxQhs i && !hs) false
    donePending := ffLoadClear n.donePending true (i.cfgIsectSlv && hs && done) i.cfgDone false
    isectCnt := if swap then 0 else if n.slvUpHs i then n.isectCnt + 1 else n.isectCnt
    cfgIdxIsect := if swap then n.isectCnt else n.cfgIdxIsect
    slvSpill := P.slvSpill.next n.slvSpill i.isectSlvRsp.valid
      (i.isectSlvRsp.idx, i.isectSlvRsp.done) (n.slvReady i)
    doneFifo := P.doneFifo.next n.doneFifo false hs done (memReady && n.doneOutValid) }

/-- A fetching stream: the index queue, its credits and the clean-up flags of an
intersection master. -/
def nextFetch : Indirector P :=
  let init := n.clnInit i memReady
  let domSet := if i.cfgMerge then init
    else n.isectMstDomp && !(n.idxQvalid i || n.idxInflight.left)
  { n with
    idxBytecnt := n.idxBytecntNext i memReady
    idxIsect := n.idxIsectNext i memReady
    idxFifo := P.idxFifo.next n.idxFifo n.isectMstBlk i.idxRsp.pValid i.idxRsp.data
      (n.idxFifoPop i memReady)
    idxCredit := n.idxCredit.next (Credit.initial _ false) (n.idxFifoPop i memReady)
      (n.idxQhs i) n.isectMstBlk
    idxInflight := if C.IsectMaster then
        n.idxInflight.next (Credit.initial _ true) (n.idxQhs i) i.idxRsp.pValid false
      else n.idxInflight
    isectMstDomp := C.IsectMaster && ffLoadClear n.isectMstDomp true init n.isectMstDom false
    isectMstDom := C.IsectMaster &&
      ffLoadClear n.isectMstDom true domSet (n.memHs i memReady && n.isectMstDom) false
    isectMstDoi := C.IsectMaster &&
      ffLoadClear n.isectMstDoi true (if i.cfgMerge then n.idxSerLast i memReady else init)
        (n.isectMstHs i memReady && i.isectMstRsp.done) false
    isectMstBlk := C.IsectMaster && ffLoadClear n.isectMstBlk true init i.cfgDone false
    isectIdxLockin := C.IsectMaster &&
      ffLoadClear n.isectIdxLockin true (init && n.idxQvalid i) (n.idxQhs i) false }

def next : Indirector P := if C.IsectSlave then n.nextSlave i memReady else n.nextFetch i memReady

end Indirector

end SnitchCluster.Ssr
