/-
# Ssr.AddrGen -- the address generator

`snitch_ssr_addr_gen`: the shadowed job registers, the loop counters with their
single pointer, and the output stage that natural and indirect streams share.

A job is launched into the shadow registers and moves on when the running ones
are done; while they are, every write passes straight through.
-/
import Mathlib.Data.List.FinRange
import SnitchCluster.Ssr.Indirector
import SnitchCluster.Theory.Clocked

namespace SnitchCluster.Ssr

open Theory

variable {C : Cfg}

/-- `out_spill_t`. -/
structure OutElem (C : Cfg) where
  pointer : BitVec C.PointerWidth
  last : Bool
  zero : Bool
  kill : Bool

/-- The cells: those of the indirector, and the output stage. -/
structure AgParts (C : Cfg) where
  indir : IndirParts C
  outSpill : LawfulSpill (OutElem C) (!C.IndirOutSpill)

def AgParts.ofList (C : Cfg) : AgParts C := ⟨.ofList C, .ofList _⟩

/-- The registers: `regs`, `pointer` and `config` run, `regsS`, `pointerS` and
`configS` are their shadows. -/
structure AddrGen (P : AgParts C) where
  regs : JobRegs C
  regsS : JobRegs C
  pointer : BitVec C.PointerWidth
  pointerS : BitVec C.PointerWidth
  config : Status
  configS : Status
  index : Fin C.NumLoops → BitVec C.IndexWidth
  natitBaseLast : Bool
  natitLastWordInflight : Bool
  indir : Indirector P.indir
  spill : P.outSpill.State

def AddrGen.init (P : AgParts C) : AddrGen P where
  regs := .zero C
  regsS := .zero C
  pointer := 0
  pointerS := 0
  config := {}
  configS := {}
  index _ := 0
  natitBaseLast := false
  natitLastWordInflight := false
  indir := .init P.indir
  spill := P.outSpill.init

/-- The inputs of a cycle. -/
structure AgIn (C : Cfg) where
  cfgWord : BitVec 5 := 0
  cfgWdata : BitVec 32 := 0
  cfgWrite : Bool := false
  memReady : Bool
  idxRsp : IdxRsp C := {}
  isectSlvRsp : IsectSlvRsp C := {}
  isectMstRsp : IsectMstRsp := {}

namespace AddrGen

variable {P : AgParts C} (s : AddrGen P) (i : AgIn C)

/-! ## Configuration writes -/

/-- `cfg_wready_o`: no job is pending. -/
def cfgWready : Bool := s.configS.done

def cfgWriteEna : Bool := s.configS.done && i.cfgWrite

def statusStrobe : Bool := s.cfgWriteEna i && i.cfgWord == 0

/-- A write to one of the sixteen aliases of the status register. -/
def aliasStrobe : Bool := s.cfgWriteEna i && i.cfgWord.getLsbD 4

/-- `stride_sd`, `bound_sd`, `rep_sd` and the index registers. -/
def regsD : JobRegs C :=
  if s.cfgWriteEna i then s.regsS.write i.cfgWord i.cfgWdata else s.regsS

/-- `pointer_sd`. -/
def pointerD : BitVec C.PointerWidth :=
  if s.statusStrobe i || s.aliasStrobe i then i.cfgWdata.setWidth _ else s.pointerS

/-- `config_sd`: an alias carries the fields in its address. -/
def configD : Status :=
  if s.statusStrobe i then .ofWord i.cfgWdata
  else if s.aliasStrobe i then
    { done := false
      write := i.cfgWord.getLsbD 2
      dims := i.cfgWord.extractLsb' 0 2
      indir := !i.cfgWord.getLsbD 3 }
  else s.configS

/-! ## Loop counters -/

def base (C : Cfg) : Fin C.NumLoops := ⟨0, C.loops_pos⟩

/-- `natit_base_bound`: an indirect job counts words, not indices. -/
def natitBaseBound : BitVec C.IndexWidth :=
  s.regs.bound (base C) >>>
    (if s.config.indir then (BitVec.allOnes _ - s.regs.idxSize).toNat else 0)

/-- `natit_base_last_d`. -/
def natitBaseLastD : Bool := s.index (base C) == s.natitBaseBound

/-- `natit_done`. -/
def natitDone : Bool := s.natitLastWordInflight || s.config.done

/-- What the indirector reads from the generator. -/
def indirIn : IndirIn C where
  idxRsp := i.idxRsp
  isectSlvRsp := i.isectSlvRsp
  isectMstRsp := i.isectMstRsp
  cfgOffsNext := (s.pointerD i).setWidth _
  cfgDone := s.config.done
  cfgIndir := s.config.indir
  cfgIsectSlv := s.config.indir && s.config.dims == 1
  cfgIsectMst := s.config.indir && s.config.dims.getLsbD 1
  cfgIsectSlvEna := s.config.indir && s.config.dims == 3
  cfgSize := s.regs.idxSize
  cfgBase := s.regs.idxBase
  cfgShift := s.regs.idxShift
  cfgMerge := s.regs.idxMerge
  natitPointer := s.pointer
  natitDone := s.natitDone
  natitBoundoffs :=
    (s.regs.bound (base C)).setWidth C.BytecntWidth <<< s.regs.idxSize.toNat

/-- `natit_extraword`: the innermost loop runs once more. -/
def natitExtraword : Bool := Indirector.natitExtraword (s.indirIn i)

/-- `loop_last`. -/
def loopLast (k : Fin C.NumLoops) : Bool :=
  if k = base C then
    if C.Indirection then
      if s.natitExtraword i then s.natitBaseLast else s.natitBaseLastD
    else s.index k == s.regs.bound k
  else s.config.indir || (s.index k == s.regs.bound k || decide (s.config.dims.toNat < k.val))

/-- `loop_enabled`: all inner loops are at their maximum. -/
def loopEnabled (k : Fin C.NumLoops) : Bool :=
  (List.finRange C.NumLoops).all fun j => decide (k ≤ j) || s.loopLast i j

/-- `done`: all loops are. -/
def done : Bool := (List.finRange C.NumLoops).all fun j => s.loopLast i j

/-- `loop_enabled & ~(loop_enabled >> 1)`. -/
def outermost (k : Fin C.NumLoops) : Bool :=
  s.loopEnabled i k &&
    !(if above : k.val + 1 < C.NumLoops then s.loopEnabled i ⟨k.val + 1, above⟩ else false)

def selectedStride : BitVec C.PointerWidth :=
  if C.Indirection && s.config.indir then BitVec.ofNat _ C.WordBytes
  else (List.finRange C.NumLoops).foldl
    (fun stride k => if s.outermost i k then stride ||| s.regs.stride k else stride) 0

/-! ## The output stage -/

/-- `spill_in_data`, given the last flag of the indirector. -/
def spillInData (last : Bool) : OutElem C :=
  if s.config.indir then
    { pointer := s.indir.memPointer (s.indirIn i)
      last := last
      zero := Indirector.memZero (s.indirIn i)
      kill := s.indir.memDone (s.indirIn i) }
  else { pointer := s.pointer, last := s.done i, zero := false, kill := false }

/-- `mem_kill`, which no last flag reaches. -/
def memKill : Bool :=
  C.Indirection && (P.outSpill.data s.spill (s.spillInData i false)).kill

def spillOutReady : Bool := i.memReady || s.memKill i

def spillInReady : Bool := P.outSpill.ready s.spill (s.spillOutReady i)

/-- The element at the output. -/
def memElem : OutElem C :=
  if C.Indirection then
    P.outSpill.data s.spill
      (s.spillInData i (s.indir.memLast (s.indirIn i) (s.spillInReady i)))
  else { pointer := s.pointer, last := s.done i, zero := false, kill := false }

def spillInValid : Bool :=
  if s.config.indir then s.indir.memValid (s.indirIn i) (s.spillInReady i) else !s.natitDone

def spillOutValid : Bool := P.outSpill.valid s.spill (s.spillInValid i)

/-- `mem_valid_o`: a kill is not forwarded. -/
def memValid : Bool :=
  if C.Indirection then s.spillOutValid i && !s.memKill i else !s.config.done

/-- `mem_write_o`. -/
def memWrite : Bool := s.config.write

/-- `mem_ptr_hs`. -/
def memPtrHs : Bool :=
  if C.Indirection then s.spillOutValid i && s.spillOutReady i
  else !s.config.done && i.memReady

/-- The handshake on the memory port. -/
def memHs : Bool := s.memValid i && i.memReady

/-- `enable`: the counters advance. -/
def enable : Bool :=
  if C.Indirection then
    if s.config.indir then !s.natitDone && s.indir.natitReady (s.indirIn i)
    else !s.natitDone && s.spillInReady i
  else !s.config.done && i.memReady

/-! ## The cycle -/

/-- `index_q`: a loop clears when it wraps, the base loop also at a kill. -/
def indexNext (k : Fin C.NumLoops) : BitVec C.IndexWidth :=
  let ena := s.enable i && s.loopEnabled i k
  ffLoadClear (s.index k) (s.index k + 1) ena
    ((ena && s.loopLast i k) || (decide (k = base C) && (s.memPtrHs i && s.memKill i))) 0

def pointerNext : BitVec C.PointerWidth :=
  if s.config.done then s.pointerD i
  else if s.enable i then s.pointer + s.selectedStride i
  else s.pointer

def configNext : Status :=
  if s.config.done then s.configD i
  else if s.memPtrHs i then { s.config with done := (s.memElem i).last || s.memKill i }
  else s.config

def configSNext : Status :=
  if s.config.done then { s.configD i with done := true } else s.configD i

def next : AddrGen P where
  regs := if s.config.done then s.regsD i else s.regs
  regsS := s.regsD i
  pointer := s.pointerNext i
  pointerS := s.pointerD i
  config := s.configNext i
  configS := s.configSNext i
  index := s.indexNext i
  natitBaseLast := C.Indirection &&
    ffLoadClear s.natitBaseLast s.natitBaseLastD (s.enable i) s.natitDone false
  natitLastWordInflight := C.Indirection &&
    ffLoadClear s.natitLastWordInflight true (s.enable i && s.done i) s.config.done false
  indir := if C.Indirection then s.indir.next (s.indirIn i) (s.spillInReady i) else s.indir
  spill := if C.Indirection then
      P.outSpill.next s.spill (s.spillInValid i)
        (s.spillInData i (s.indir.memLast (s.indirIn i) (s.spillInReady i))) (s.spillOutReady i)
    else s.spill

/-! ## Jobs -/

/-- The job in the running registers. -/
def job : Job C := ⟨s.pointer, s.config, s.regs⟩

/-- The job a configuration write launches, with the registers in force. -/
def launchOf (regs : JobRegs C) (word : BitVec 5) (wdata : BitVec 32) : Option (Job C) :=
  if word == 0 then
    if wdata.getLsbD 31 then none else some ⟨wdata.setWidth _, .ofWord wdata, regs⟩
  else if word.getLsbD 4 then
    some
      { pointer := wdata.setWidth _
        config :=
          { done := false
            write := word.getLsbD 2
            dims := word.extractLsb' 0 2
            indir := !word.getLsbD 3 }
        regs := regs }
  else none

/-- The launch accepted in a cycle. -/
def accepted : Option (Job C) :=
  if s.cfgWriteEna i then launchOf s.regsS i.cfgWord i.cfgWdata else none

/-- The job the running registers take up in a cycle. -/
def started : Option (Job C) :=
  if s.config.done && !(s.next i).config.done then some (s.next i).job else none

/-- The running job ends in a cycle. -/
def ended : Bool := !s.config.done && (s.next i).config.done

/-- What a cycle of the address generator shows. -/
structure Obs (C : Cfg) where
  accepted : Option (Job C)
  started : Option (Job C)
  element : Option (OutElem C)
  ended : Bool

/-- The address generator as a machine. -/
def machine (P : AgParts C) : Machine (AddrGen P) (AgIn C) (Obs C) where
  obs s i :=
    { accepted := s.accepted i
      started := s.started i
      element := if s.memHs i then some (s.memElem i) else none
      ended := s.ended i }
  next := next

/-- The elements a run has shown on the memory port. -/
def shown (past : List (Obs C)) : List (OutElem C) := past.filterMap Obs.element

theorem shown_concat (past : List (Obs C)) (s : AddrGen P) (i : AgIn C) :
    shown (past ++ [(machine P).obs s i]) =
      shown past ++ if s.memHs i then [s.memElem i] else [] := by
  have element : ((machine P).obs s i).element =
      if s.memHs i then some (s.memElem i) else none := rfl
  rw [shown, List.filterMap_append, List.filterMap_cons, List.filterMap_nil, element]
  cases s.memHs i <;> rfl

end AddrGen

end SnitchCluster.Ssr
