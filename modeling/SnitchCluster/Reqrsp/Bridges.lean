/-
# Reqrsp.Bridges -- a request through AXI and back

A request crosses `reqrsp_to_axi` and then `axi_to_reqrsp`, its response the two the
other way.  The operation is told on AXI by the lock and the atomic field, and the
success of an exclusive write by EXOKAY.

Requests come out as they went in (`request_crosses`), and so do the responses to
everything but a store conditional.  The target says 0 when that succeeds; the far
bridge makes a 0 into OKAY and a 1 into EXOKAY; the near bridge takes EXOKAY for
success.  `inverse_iff` is what is left.
-/
import SnitchCluster.Reqrsp.ToAxi
import SnitchCluster.Reqrsp.FromAxi

namespace SnitchCluster.Reqrsp

open Theory

/-- Two bridges of the same widths, back to back. -/
structure BridgeParts where
  AddrWidth : Nat
  DataWidth : Nat
  IdWidth : Nat
  ID : BitVec IdWidth
  MaxTrans : Nat
  BufDepth : Nat
  axi : AxiPkg
  nearFork : LawfulFork 2
  axMux : LawfulSelect 2
  farFork : LawfulFork 3
  selBuf : LawfulFall (Bool × Bool) (1 + BufDepth)
  metaBuf : LawfulFall (MetaT AddrWidth IdWidth) (1 + BufDepth)
  join : LawfulJoin 2
  forkDynamic : LawfulBranch 2
  MaxTrans_gt : 1 < MaxTrans
  DataWidth_mem : DataWidth = 32 ∨ DataWidth = 64

namespace BridgeParts

variable (P : BridgeParts)

/-- `reqrsp_to_axi`. -/
abbrev near : ToAxiParts where
  AddrWidth := P.AddrWidth
  DataWidth := P.DataWidth
  IdWidth := P.IdWidth
  ID := P.ID
  MaxTrans := P.MaxTrans
  axi := P.axi
  fork := P.nearFork
  MaxTrans_gt := P.MaxTrans_gt

/-- `axi_to_reqrsp`. -/
abbrev far : FromAxiParts where
  AxiAddrWidth := P.AddrWidth
  AddrWidth := P.AddrWidth
  DataWidth := P.DataWidth
  IdWidth := P.IdWidth
  BufDepth := P.BufDepth
  axi := P.axi
  axMux := P.axMux
  fork := P.farFork
  selBuf := P.selBuf
  metaBuf := P.metaBuf
  join := P.join
  forkDynamic := P.forkDynamic

abbrev Req := ReqChan P.AddrWidth P.DataWidth

abbrev Rsp := RspChan P.DataWidth

end BridgeParts

namespace Bridges

variable {P : BridgeParts}

/-- The beats the far bridge makes of a request that comes on AR, or on AW and W. -/
def farBeats (q : P.Req) : List (FromAxi.Item P.far) :=
  if q.isWrite then
    (FromAxi.writeBeats P.far (ToAxi.aw P.near q)).map fun m => (m, some (ToAxi.w (P := P.near) q))
  else (FromAxi.readBeats P.far (ToAxi.ar P.near q)).map fun m => (m, none)

/-- The requests at the far end. -/
def farRequests (q : P.Req) : List P.Req := (farBeats q).map FromAxi.requestOf

/-- The request as far as it can be seen: a read has no data. -/
def effective (q : P.Req) : P.Req := if q.isWrite then q else { q with data := 0, strb := 0 }

/-- A cycle in which the near bridge hands on the response to `q`: R and B bring what the
far bridge makes of the response `p` of the target. -/
structure Returns (q : P.Req) (p : P.Rsp) (s : ToAxi P.near) (i : ToAxiIn P.near) : Prop where
  atomic : s.atomicInFlight = isAmo q.amo
  onR : ∀ x ∈ farBeats q, FromAxi.rOf x p = if s.rValid i then some i.r else none
  -- B may lag behind R
  onB : ∀ x ∈ farBeats q, i.bValid = true → FromAxi.bOf x p = some i.b
  valid : s.pValid i = true

/-- The same response: the same error, the same data for a read, an atomic and a load
reserved, and the same verdict on a store conditional. -/
structure SameResponse (q : P.Req) (p p' : P.Rsp) : Prop where
  error : p'.error = p.error
  data : q.write = false → q.amo ≠ .AMOSC → p'.data = p.data
  success : q.amo = .AMOSC → (p'.data = 0 ↔ p.data = 0)

/-! ## Requests -/

/-- A burst of one beat. -/
theorem beats_single (ax : P.far.Ar) (atop : BitVec 6) (write : Bool) (one : ax.len = 0) :
    FromAxi.beats P.far ax atop write =
      [{ firstHeld P.far ax atop write with addr := ax.addr, last := true }] := by
  rw [FromAxi.beats, one]
  show [_] = [_]
  simp

/-- The beat of a request. -/
def farBeat (q : P.Req) : FromAxi.Item P.far :=
  if q.isWrite then
    ({ addr := q.addr, atop := P.axi.toAxiAmo q.amo, id := P.ID, last := true, qos := 0,
       size := q.size, write := true, lock := q.amo == .AMOSC }, some (ToAxi.w (P := P.near) q))
  else
    ({ addr := q.addr, atop := 0, id := P.ID, last := true, qos := 0, size := q.size,
       write := false, lock := q.amo == .AMOLR }, none)

theorem farBeat_write {q : P.Req} (write : q.isWrite = true) :
    farBeat q =
      ({ addr := q.addr, atop := P.axi.toAxiAmo q.amo, id := P.ID, last := true, qos := 0,
         size := q.size, write := true, lock := q.amo == .AMOSC }, some (ToAxi.w (P := P.near) q)) :=
  if_pos write

theorem farBeat_read {q : P.Req} (read : q.isWrite = false) :
    farBeat q =
      ({ addr := q.addr, atop := 0, id := P.ID, last := true, qos := 0, size := q.size,
         write := false, lock := q.amo == .AMOLR }, none) :=
  if_neg (Bool.eq_false_iff.mp read)

theorem farBeats_eq (q : P.Req) : farBeats q = [farBeat q] := by
  rw [farBeats, farBeat]
  cases q.isWrite with
  | true =>
    rw [if_pos rfl, if_pos rfl, FromAxi.writeBeats, beats_single _ _ _ rfl]
    rfl
  | false =>
    rw [if_neg Bool.false_ne_true, if_neg Bool.false_ne_true, FromAxi.readBeats,
      beats_single _ _ _ rfl]
    rfl

/-- Which operations go out as writes. -/
theorem isWrite_eq {q : P.Req} (plain : q.amo ≠ .AMONone → q.write = false) :
    q.isWrite = if q.amo = .AMONone then q.write else !(q.amo == .AMOLR) := by
  rw [ReqChan.isWrite]
  cases op : q.amo
  case AMONone => cases q.write <;> rfl
  all_goals
    rw [plain (by rw [op]; decide)]
    rfl

/-- The far bridge tells the operation. -/
theorem amo_farBeat {q : P.Req} (plain : q.amo ≠ .AMONone → q.write = false) :
    FromAxi.amo (P := P.far) (farBeat q).1 = q.amo := by
  have kind := isWrite_eq plain
  have back := AxiPkg.fromAxiAmo_toAxiAmo (X := P.axi) q.amo
  have none := AxiPkg.fromAxiAmo_toAxiAmo (X := P.axi) .AMONone
  rw [farBeat, kind]
  cases op : q.amo
  case AMONone =>
    rw [if_pos rfl]
    cases q.write
    · exact none
    · exact none
  all_goals
    rw [op] at back
    first
      | exact back
      | rfl

/-- The far bridge undoes the inversion of the operand. -/
theorem data_farBeat {q : P.Req} (write : q.isWrite = true) :
    FromAxi.data (P := P.far) (farBeat q).1 (ToAxi.w (P := P.near) q) = q.data := by
  have back := AxiPkg.fromAxiAmo_toAxiAmo (X := P.axi) q.amo
  have told : (farBeat q).1.atop = P.axi.toAxiAmo q.amo := by rw [farBeat, if_pos write]
  rw [FromAxi.data, told, back]
  show (if _ then ~~~q.writeData else q.writeData) = q.data
  rw [ReqChan.writeData]
  by_cases clear : q.amo = .AMOAnd
  · rw [clear]
    exact BitVec.not_not
  · rw [if_neg clear]
    have other : (if isAmo q.amo = true then q.amo else .AMONone) ≠ .AMOAnd := by
      split
      · exact clear
      · decide
    rw [if_neg other]

/-- **Requests cross.** -/
theorem request_crosses {q : P.Req} (plain : q.amo ≠ .AMONone → q.write = false) :
    farRequests q = [effective q] := by
  have amo := amo_farBeat plain
  have kind := isWrite_eq plain
  rw [farRequests, farBeats_eq, List.map_singleton, FromAxi.requestOf, FromAxi.q, effective, amo]
  congr 1
  cases write : q.isWrite with
  | false =>
    have read : q.write = false := by
      rw [write] at kind
      by_cases op : q.amo = .AMONone
      · rw [if_pos op] at kind
        exact kind.symm
      · exact plain op
    rw [farBeat_read write]
    ext1
    · rfl
    · exact read.symm
    · rfl
    · rfl
    · rfl
    · rfl
  | true =>
    have data := data_farBeat write
    have told : q.write = (q.amo == .AMONone) := by
      rw [write] at kind
      by_cases op : q.amo = .AMONone
      · rw [if_pos op] at kind
        rw [← kind, op]
        rfl
      · rw [plain op, beq_eq_false_iff_ne.mpr op]
    rw [farBeat_write write] at data ⊢
    ext1
    · rfl
    · exact told.symm
    · rfl
    · exact data
    · rfl
    · rfl

/-! ## Responses -/

theorem selR_farBeat (q : P.Req) :
    FromAxi.selR (P := P.far) (farBeat q).1 = (!q.isWrite || isAmo q.amo) := by
  rw [farBeat, FromAxi.selR]
  cases q.isWrite with
  | false => rfl
  | true => exact AxiPkg.toAxiAmo_getLsbD q.amo

theorem selB_farBeat (q : P.Req) : FromAxi.selB (P := P.far) (farBeat q).1 = q.isWrite := by
  rw [farBeat, FromAxi.selB]
  cases q.isWrite <;> rfl

/-- The far bridge reports the lower bit of the data of an exclusive access. -/
theorem resp_exokay_iff {m : P.far.Beat} (lock : m.lock = true) (p : P.Rsp) :
    FromAxi.resp (P := P.far) m p = P.axi.RESP_EXOKAY ↔
      p.error = false ∧ p.data.getLsbD 0 = true := by
  rw [FromAxi.resp, lock, if_pos rfl, P.axi.exokay_eq]
  cases p.error <;> cases p.data.getLsbD 0 <;> decide

theorem ones_ne_zero : ToAxi.ones P.near ≠ 0 := by
  have every : ∀ w, w = 32 ∨ w = 64 → BitVec.ofNat w
      ((List.range (w / 32)).foldl (fun d k => d + 2 ^ (32 * k)) 0) ≠ 0 := by
    rintro w (rfl | rfl) <;> decide
  exact every P.DataWidth P.DataWidth_mem

section Response

variable {q : P.Req} {p : P.Rsp} {s : ToAxi P.near} {i : ToAxiIn P.near}

/-- What the channels bring for a request. -/
theorem Returns.channels (returns : Returns q p s i) :
    s.rValid i = (!q.isWrite || isAmo q.amo) ∧
      (s.rValid i = true → i.r = FromAxi.r (farBeat q).1 p) ∧
      (i.bValid = true → q.isWrite = true ∧ i.b = FromAxi.b (farBeat q).1 p) := by
  have among : farBeat q ∈ farBeats q := by
    rw [farBeats_eq]
    exact List.mem_singleton.mpr rfl
  have onR := returns.onR _ among
  have onB := returns.onB _ among
  rw [FromAxi.rOf, selR_farBeat] at onR
  rw [FromAxi.bOf, selB_farBeat] at onB
  refine ⟨?_, ?_, ?_⟩
  · cases valid : s.rValid i <;> cases shown : !q.isWrite || isAmo q.amo <;>
      rw [valid, shown] at onR
    · cases onR
    · cases onR
  · intro valid
    rw [valid, if_pos rfl] at onR
    cases shown : !q.isWrite || isAmo q.amo with
    | false =>
      rw [shown] at onR
      cases onR
    | true =>
      rw [shown, if_pos rfl] at onR
      exact (Option.some.inj onR).symm
  · intro valid
    have given := onB valid
    cases write : q.isWrite with
    | false =>
      rw [write] at given
      cases given
    | true =>
      rw [write, if_pos rfl] at given
      exact ⟨rfl, (Option.some.inj given).symm⟩

/-- The error arrives. -/
theorem Returns.error (returns : Returns q p s i) : (s.p i).error = p.error := by
  obtain ⟨_, onR, onB⟩ := returns.channels
  have valid := returns.valid
  have fromR : s.rValid i = true → i.r.resp.getLsbD 1 = p.error := by
    intro read
    rw [onR read]
    exact FromAxi.resp_error (P := P.far) _ p
  have fromB : i.bValid = true → i.b.resp.getLsbD 1 = p.error := by
    intro write
    rw [(onB write).2]
    exact FromAxi.resp_error (P := P.far) _ p
  show ((s.rValid i && i.r.resp.getLsbD 1) || (i.bValid && i.b.resp.getLsbD 1)) = p.error
  rw [ToAxi.pValid] at valid
  cases read : s.rValid i with
  | true =>
    rw [fromR read]
    cases write : i.bValid with
    | true => rw [fromB write, Bool.true_and, Bool.or_self]
    | false => rw [Bool.false_and, Bool.or_false, Bool.true_and]
  | false =>
    rw [read, Bool.false_or, Bool.and_eq_true] at valid
    rw [valid.2, fromB valid.2]
    rfl

/-- So does the data of reads, atomics and load reserved. -/
theorem Returns.data (returns : Returns q p s i) (onR : (!q.isWrite || isAmo q.amo) = true) :
    (s.p i).data = p.data := by
  obtain ⟨read, given, onB⟩ := returns.channels
  rw [onR] at read
  have silent : (i.bValid && !s.atomicInFlight) = false := by
    rw [returns.atomic]
    cases write : i.bValid with
    | false => rfl
    | true =>
      rw [(onB write).1] at onR
      rw [Bool.true_and, Bool.not_eq_false']
      exact onR
  show (if i.bValid && !s.atomicInFlight && _ then _ else if s.rValid i then i.r.data else _) = _
  rw [silent, Bool.false_and, if_neg Bool.false_ne_true, read, if_pos rfl, given read]
  rfl

/-- A store conditional is told to have failed unless the target answers with a one and no
error. -/
theorem Returns.verdict (returns : Returns q p s i) (op : q.amo = .AMOSC) :
    (s.p i).data = 0 ↔ p.error = false ∧ p.data.getLsbD 0 = true := by
  have write : q.isWrite = true := by
    rw [ReqChan.isWrite, op]
    exact Bool.or_true _
  have atomic : isAmo q.amo = false := by rw [op]; rfl
  obtain ⟨read, _, onB⟩ := returns.channels
  rw [write, atomic] at read
  have silent : s.rValid i = false := read
  have valid := returns.valid
  rw [ToAxi.pValid, silent, Bool.false_or, Bool.and_eq_true] at valid
  have lock : (farBeat q).1.lock = true := by
    rw [farBeat, write, op]
    rfl
  have told : i.b.resp = FromAxi.resp (farBeat q).1 p := by rw [(onB valid.2).2]; rfl
  show (if i.bValid && !s.atomicInFlight && i.b.resp != P.axi.RESP_EXOKAY then ToAxi.ones P.near
    else if s.rValid i then i.r.data else 0) = 0 ↔ _
  rw [valid.1, valid.2, silent, told, ← resp_exokay_iff lock]
  by_cases done : FromAxi.resp (farBeat q).1 p = P.axi.RESP_EXOKAY
  · rw [done]
    simp
  · have nonzero := ones_ne_zero (P := P)
    simpa [done] using nonzero

/-- **The bridges are inverse but for a store conditional**, whose verdict is turned into
its opposite unless the target reports a failure and an error. -/
theorem inverse_iff (plain : q.amo ≠ .AMONone → q.write = false)
    (convention : q.amo = .AMOSC → p.data = 0 ∨ p.data = 1) (returns : Returns q p s i) :
    (farRequests q = [effective q] ∧ SameResponse q p (s.p i)) ↔
      (q.amo = .AMOSC → p.error = true ∧ p.data = 1) := by
  have wide : 0 < P.DataWidth := by
    rcases P.DataWidth_mem with narrow | wide <;> omega
  have bit : (1 : BitVec P.DataWidth).getLsbD 0 = true := by
    simpa using wide
  have noBit : (0 : BitVec P.DataWidth).getLsbD 0 = false := BitVec.getLsbD_zero
  have differ : (1 : BitVec P.DataWidth) ≠ 0 := by
    intro same
    rw [same, noBit] at bit
    exact Bool.noConfusion bit
  constructor
  · rintro ⟨_, same⟩ op
    have verdict := (returns.verdict op).symm.trans (same.success op)
    rcases convention op with zero | one
    · rw [zero, noBit] at verdict
      exact absurd (verdict.mpr rfl).2 Bool.false_ne_true
    · rw [one, bit] at verdict
      refine ⟨?_, one⟩
      by_contra correct
      rw [Bool.not_eq_true] at correct
      exact differ (verdict.mp ⟨correct, rfl⟩)
  · intro fails
    refine ⟨request_crosses plain, returns.error, ?_, ?_⟩
    · intro read other
      apply returns.data
      rw [isWrite_eq plain]
      cases op : q.amo
      case AMOSC => exact absurd op other
      case AMONone =>
        rw [if_pos rfl, read]
        rfl
      all_goals rfl
    · intro op
      obtain ⟨wrong, one⟩ := fails op
      rw [returns.verdict op, wrong, one]
      constructor
      · rintro ⟨correct, _⟩
        exact Bool.noConfusion correct
      · intro zero
        exact absurd zero differ

end Response

/-! ## A load reserved and a store conditional -/

/-- Two bridges of 32 bits. -/
abbrev words : BridgeParts where
  AddrWidth := 32
  DataWidth := 32
  IdWidth := 1
  ID := 0
  MaxTrans := 2
  BufDepth := 1
  axi := .amba
  nearFork := .ofFlags 2
  axMux := .apply 2
  farFork := .ofFlags 3
  selBuf := .ofList _ _
  metaBuf := .ofList _ _
  join := .all 2
  forkDynamic := .ofFlags 2
  MaxTrans_gt := Nat.one_lt_two
  DataWidth_mem := Or.inl rfl

def loadReserved : words.Req :=
  { addr := 8, write := false, amo := .AMOLR, data := 0, strb := 0, size := 2 }

def storeConditional : words.Req :=
  { addr := 8, write := false, amo := .AMOSC, data := 5, strb := 15, size := 2 }

/-- The near bridge while the answer to the load reserved arrives. -/
def loadReturns : ToAxiIn words.near where
  qValid := false
  q := loadReserved
  pReady := true
  arReady := false
  awReady := false
  wReady := false
  rValid := true
  r := { id := 0, data := 7, resp := 1, last := true }
  bValid := false
  b := { id := 0, resp := 0 }

theorem inverse_load :
    farRequests loadReserved = [effective loadReserved] ∧
      SameResponse loadReserved ⟨7, false⟩ ((ToAxi.init words.near).p loadReturns) :=
  (inverse_iff (fun _ => rfl) (fun op => by cases op)
    { atomic := rfl
      onR := by decide
      onB := fun _ _ none => Bool.noConfusion none
      valid := rfl }).mpr fun op => by cases op

/-- A cycle of both bridges, the AXI channels of one being those of the other. -/
structure Wired (s : ToAxi P.near) (t : FromAxi P.far) (i : ToAxiIn P.near)
    (j : FromAxiIn P.far) : Prop where
  ar : j.arValid = s.arValid i ∧ j.ar = ToAxi.ar P.near i.q ∧ i.arReady = t.arReady j
  aw : j.awValid = s.awValid i ∧ j.aw = ToAxi.aw P.near i.q ∧ i.awReady = t.awReady j
  w : j.wValid = s.wValid i ∧ j.w = ToAxi.w (P := P.near) i.q ∧ i.wReady = t.wReady j
  r : i.rValid = t.rbValid j 0 ∧ i.r = FromAxi.r (t.metaBufO j) j.p ∧ j.rReady = s.axiRready i
  b : i.bValid = t.rbValid j 1 ∧ i.b = FromAxi.b (t.metaBufO j) j.p ∧ j.bReady = s.axiBready i

/-- The store conditional crosses, and then the answer of the target, a success. -/
def conditionalIns : List (ToAxiIn words.near × FromAxiIn words.far) :=
  let aw := ToAxi.aw words.near storeConditional
  let ar := ToAxi.ar words.near storeConditional
  let w : words.far.W := ToAxi.w (P := words.near) storeConditional
  let r : words.far.R := { id := 0, data := 0, resp := 0, last := true }
  [({ qValid := true, q := storeConditional, pReady := true, arReady := false, awReady := true,
      wReady := true, rValid := false, r := r, bValid := false, b := { id := 0, resp := 0 } },
    { arValid := false, ar := ar, awValid := true, aw := aw, wValid := true, w := w,
      rReady := false, bReady := false, qReady := true, pValid := false, p := ⟨0, false⟩ }),
   ({ qValid := false, q := storeConditional, pReady := true, arReady := false, awReady := false,
      wReady := false, rValid := false, r := r, bValid := true, b := { id := 0, resp := 0 } },
    { arValid := false, ar := ar, awValid := false, aw := aw, wValid := false, w := w,
      rReady := false, bReady := true, qReady := true, pValid := true, p := ⟨0, false⟩ })]

/-- Both bridges cycle by cycle. -/
def WiredAlong : ToAxi P.near → FromAxi P.far → List (ToAxiIn P.near × FromAxiIn P.far) → Prop
  | _, _, [] => True
  | s, t, (i, j) :: rest => Wired s t i j ∧ WiredAlong (s.next i) (t.next j) rest

/-- The target has stored, and the originator is told that it has not. -/
theorem verdict_inverted :
    WiredAlong (ToAxi.init words.near) (FromAxi.init words.far) conditionalIns ∧
      FromAxi.requests ((FromAxi.machine words.far).trace (FromAxi.init words.far)
        (conditionalIns.map Prod.snd)) = [storeConditional] ∧
      FromAxi.responses ((FromAxi.machine words.far).trace (FromAxi.init words.far)
        (conditionalIns.map Prod.snd)) = [⟨0, false⟩] ∧
      ((ToAxi.responses ((ToAxi.machine words.near).trace (ToAxi.init words.near)
        (conditionalIns.map Prod.fst))).map Prod.fst) = [⟨1, false⟩] ∧
      ¬SameResponse storeConditional ⟨0, false⟩ ⟨1, false⟩ := by
  refine ⟨⟨?_, ?_, trivial⟩, by decide, by decide, by decide, ?_⟩
  · constructor <;> decide
  · constructor <;> decide
  · intro same
    have verdict := same.success rfl
    exact absurd (verdict.mpr rfl) (by decide)

end Bridges

end SnitchCluster.Reqrsp
