/-
# Ipu.Responses -- one answer for every register-writing request

The core offloads to the integer subsystem the instructions that write one of its own
registers (`Offloaded`).  Each names an operation (`operationOf`), or moves a register of
the subsystem, so the answer it is owed is a function of the request and the register
file (`answer`).  The subsystem gives it, at once and in order, to the requests it
serves (`served`); the others are popped without an answer, or answered wrongly.
-/
import SnitchCluster.Core.Pipeline
import SnitchCluster.Ipu.IntSs
import SnitchCluster.Ipu.Operation

namespace SnitchCluster.Ipu

open Theory
open Theory.BitPat
open SnitchCluster.Core.Instr

/-! ## The requests -/

/-- The instructions that name an operation. -/
def operations : List (Arm 32 Operation) :=
  [ ([ANDN], .andn), ([ORN], .orn), ([XNOR], .xnor), ([SLO, SLOI], .slo), ([SRO, SROI], .sro),
    ([ROL], .rol), ([ROR, RORI], .ror), ([SBCLR, SBCLRI], .sbclr), ([SBSET, SBSETI], .sbset),
    ([SBINV, SBINVI], .sbinv), ([SBEXT, SBEXTI], .sbext), ([GORC, GORCI], .gorc),
    ([GREV, GREVI], .grev), ([CLZ], .clz), ([CTZ], .ctz), ([PCNT], .pcnt), ([SEXT_B], .sextB),
    ([SEXT_H], .sextH), ([CRC32_B], .crc32B), ([CRC32_H], .crc32H), ([CRC32_W], .crc32W),
    ([CRC32C_B], .crc32cB), ([CRC32C_H], .crc32cH), ([CRC32C_W], .crc32cW), ([CLMUL], .clmul),
    ([CLMULR], .clmulr), ([CLMULH], .clmulh), ([MIN], .min), ([MAX], .max), ([MINU], .minu),
    ([MAXU], .maxu), ([SHFL, SHFLI], .shfl), ([UNSHFL, UNSHFLI], .unshfl), ([BEXT], .bext),
    ([BDEP], .bdep), ([PACK], .pack), ([PACKU], .packu), ([PACKH], .packh), ([BFP], .bfp) ]

/-- The operation an instruction word names, if it names one. -/
def operationOf (dataOp : BitVec 32) : Option Operation :=
  firstMatch (operations.map fun arm => (arm.1, some arm.2)) none dataOp

/-- The instructions the subsystem owes an answer: those, and the move of a register. -/
def owed : List (BitPat 32) := IMV_X_W :: operations.flatMap Prod.fst

/-- An arm of the core's decoder that awaits a register of the integer subsystem. -/
def awaits (d : Core.Dec) : Bool := d.accQvalid && d.accAddr == .intSs && d.accRegisterRd

/-- The core offloads the word to the integer subsystem and awaits a register. -/
def Offloaded (dataOp : BitVec 32) : Prop :=
  ∃ C privLvl debug fmode, awaits (Core.decode C privLvl debug fmode dataOp) = true

section Arms

open Core Core.Dec

variable (C : Core.Cfg) (privLvl : Core.PrivLvl) (debug : Bool) (fmode : Core.FmtMode)
  (inst : BitVec 32)

/-- Computations, accesses and system instructions await nothing of the subsystem. -/
theorem coreArms_await_not : ∀ arm ∈
    baseArms ++ csrArms inst ++ systemArms privLvl debug ++ atomicArms, awaits arm.2 = false := by
  have base : ∀ arm ∈ baseArms, awaits arm.2 = false := by decide
  have atomic : ∀ arm ∈ atomicArms, awaits arm.2 = false := by decide
  have csr : ∀ d ∈ csrValues, awaits d = false := by decide
  have system : ∀ arm ∈ systemArms privLvl debug, awaits arm.2 = false := by
    simp only [systemArms, List.forall_mem_cons]
    refine ⟨rfl, rfl, ?_, ?_, ?_, rfl, rfl, ?_, ?_, by simp⟩ <;>
      exact ite_all (awaits · = false) rfl rfl
  simp only [List.forall_mem_append]
  exact ⟨⟨⟨base, fun arm member => csr _ (csrArms_values inst arm member)⟩, system⟩, atomic⟩

/-- Nor do the instructions offloaded elsewhere. -/
theorem foreignArms_await_not : ∀ arm ∈ fpArms C fmode inst ++ (fpToIntArms C fmode ++
    (intToFpArms C fmode ++ (fpAccessArms C ++ customArms C))), awaits arm.2 = false := by
  have fp : ∀ d ∈ fpValues, awaits d = false := by decide
  have fpToInt : ∀ d ∈ fpToIntValues, awaits d = false := by decide
  have intToFp : ∀ d ∈ intToFpValues, awaits d = false := by decide
  have access : ∀ d ∈ fpAccessValues, awaits d = false := by decide
  have custom : ∀ d ∈ customValues, awaits d = false := by decide
  simp only [List.forall_mem_append]
  refine ⟨fun arm member => fp _ ?_, fun arm member => fpToInt _ ?_,
    fun arm member => intToFp _ ?_, fun arm member => access _ ?_, fun arm member => custom _ ?_⟩
  · exact fpArms_values C fmode inst arm member
  · exact fpToIntArms_values C fmode arm member
  · exact intToFpArms_values C fmode arm member
  · exact fpAccessArms_values C arm member
  · exact customArms_values C arm member

/-- Of the instructions offloaded to the subsystem, those that await a register are owed
an answer. -/
theorem intSsArms_await : ∀ arm ∈ intSsArms C, awaits arm.2 = true →
    arm.1.all owed.contains = true := by
  have absent : ∀ {present : Bool} {d : Core.Dec} {P : Prop}, awaits (offload true d) = false →
      awaits (offload present d) = true → P := by
    intro present d P other waiting
    rw [offload_all (awaits · = false) rfl other] at waiting
    contradiction
  simp only [intSsArms, List.forall_mem_cons]
  exact ⟨absent rfl, fun _ => by decide, fun _ => by decide, absent rfl, fun _ => by decide,
    absent rfl, absent rfl, by simp⟩

end Arms

/-- **What the core offloads here is owed an answer.** -/
theorem Offloaded.inside_owed {dataOp : BitVec 32} (offloaded : Offloaded dataOp) :
    inside dataOp owed = true := by
  obtain ⟨C, privLvl, debug, fmode, waiting⟩ := offloaded
  rcases firstMatch_mem (Core.decoderArms C privLvl debug fmode dataOp) Core.Dec.illegal dataOp with
    missed | ⟨arm, member, hit, taken⟩
  · rw [Core.decode, missed] at waiting
    contradiction
  · rw [Core.decode, taken] at waiting
    have parts : arm ∈ (Core.baseArms ++ Core.csrArms dataOp ++ Core.systemArms privLvl debug ++
        Core.atomicArms) ++ (Core.intSsArms C ++ (Core.fpArms C fmode dataOp ++
          (Core.fpToIntArms C fmode ++ (Core.intToFpArms C fmode ++ (Core.fpAccessArms C ++
            Core.customArms C))))) := by
      simpa only [Core.decoderArms, List.append_assoc] using member
    rcases List.mem_append.mp parts with own | rest
    · rw [coreArms_await_not _ _ _ arm own] at waiting
      contradiction
    · rcases List.mem_append.mp rest with here | foreign
      · obtain ⟨p, among, met⟩ := List.any_eq_true.mp hit
        have listed := List.all_eq_true.mp (intSsArms_await C arm here waiting) p among
        exact List.any_eq_true.mpr ⟨p, by simpa using listed, met⟩
      · rw [foreignArms_await_not _ _ _ arm foreign] at waiting
        contradiction

/-! ## What the subsystem makes of them -/

/-- The decoder of the subsystem on an instruction that names an operation. -/
def expected (o : Operation) : Dec :=
  match o with
  | .crc32B | .crc32H | .crc32W | .crc32cB | .crc32cH | .crc32cW | .clmul | .clmulh =>
    Dec.multicycle (Dec.fromAcc o.op)
  | .bext | .bdep => Dec.multicycle { resultSelect := .resAccBus }
  | _ => Dec.fromAcc o.op

/-- The decoder on a move of a register. -/
def expectedMove : Dec := { opSelect0 := .reg, aluOp := .or, resultSelect := .resAccBus }

/-- No two instructions that name different operations share a word, ... -/
theorem operations_apart : ∀ row ∈ operations, ∀ p ∈ row.1,
    apart p IMV_X_W = true ∧
      ∀ other ∈ operations, other.2 = row.2 ∨ ∀ q ∈ other.1, apart p q = true := by
  decide

/-- ... and each meets the arm of the decoder that was meant for it, but for the reversed
product. -/
theorem decoderArms_operations : ∀ row ∈ operations, row.2 ≠ .clmulr → ∀ p ∈ row.1,
    (∃ arm ∈ decoderArms, p ∈ arm.1 ∧ arm.2 = expected row.2) ∧
      ∀ other ∈ decoderArms, other.2 = expected row.2 ∨ ∀ q ∈ other.1, apart p q = true := by
  decide

theorem decoderArms_move : (∃ arm ∈ decoderArms, IMV_X_W ∈ arm.1 ∧ arm.2 = expectedMove) ∧
    ∀ other ∈ decoderArms, other.2 = expectedMove ∨ ∀ q ∈ other.1, apart IMV_X_W q = true := by
  decide

theorem operationOf_row {row : Arm 32 Operation} (member : row ∈ operations) {p : BitPat 32}
    (among : p ∈ row.1) {dataOp : BitVec 32} (met : p.test dataOp = true) :
    operationOf dataOp = some row.2 := by
  have others := (operations_apart row member p among).2
  have listed : (row.1, some row.2) ∈ operations.map fun arm => (arm.1, some arm.2) :=
    List.mem_map.mpr ⟨row, member, rfl⟩
  refine firstMatch_value listed among ?_ none met
  intro arm present
  obtain ⟨other, listed, rfl⟩ := List.mem_map.mp present
  rcases others other listed with same | differ
  · exact .inl (congrArg some same)
  · exact .inr differ

theorem operationOf_move {dataOp : BitVec 32} (met : IMV_X_W.test dataOp = true) :
    operationOf dataOp = none := by
  rcases firstMatch_mem (operations.map fun arm => (arm.1, some arm.2)) none dataOp with
    missed | ⟨arm, present, hit, -⟩
  · exact missed
  · obtain ⟨row, listed, rfl⟩ := List.mem_map.mp present
    obtain ⟨p, among, other⟩ := List.any_eq_true.mp hit
    rw [apart_sound (operations_apart row listed p among).1 other] at met
    contradiction

/-- **The two decoders agree**: an offloaded word names an operation and meets its arm, or
moves a register. -/
theorem Offloaded.decodes {dataOp : BitVec 32} (offloaded : Offloaded dataOp) :
    (∃ o, operationOf dataOp = some o ∧ (o ≠ .clmulr → decode dataOp = expected o)) ∨
      (operationOf dataOp = none ∧ decode dataOp = expectedMove) := by
  obtain ⟨p, listed, met⟩ := List.any_eq_true.mp offloaded.inside_owed
  rcases List.mem_cons.mp listed with rfl | named
  · right
    obtain ⟨⟨arm, member, among, value⟩, others⟩ := decoderArms_move
    refine ⟨operationOf_move met, ?_⟩
    rw [decode, firstMatch_value member among (value ▸ others) _ met, value]
  · left
    obtain ⟨row, member, among⟩ := List.mem_flatMap.mp named
    refine ⟨row.2, operationOf_row member among met, fun other => ?_⟩
    obtain ⟨⟨arm, present, within, value⟩, others⟩ :=
      decoderArms_operations row member other p among
    rw [decode, firstMatch_value present within (value ▸ others) _ met, value]

/-! ## The answers -/

/-- The response a request is owed: its operation on its own operands, or the register it
moves, under its own identifier. -/
def answer {Id : Type} (mem : BitVec 5 → BitVec 32) (req : AccReq Id) : AccResp Id where
  id := req.id
  error := false
  data :=
    match operationOf req.dataOp with
    | some o => (o.apply (req.dataArga.setWidth 32) (req.dataArgb.setWidth 32)).setWidth 64
    | none => (mem (req.dataOp.extractLsb' 15 5)).setWidth 64

/-- What the subsystem answers with the flag of the second cycle at `active`: operations
of one cycle, those that shift with the flag low, the products of two cycles with the flag
high; neither rotations, redundancy checks, extraction and deposit nor the reversed
product. -/
def served (active : Bool) (dataOp : BitVec 32) : Bool :=
  match operationOf dataOp with
  | none => true
  | some .clmul | some .clmulh => active
  | some .clmulr => false
  | some o => o.combinational && !(active && o.shifts)

/-- The arm of an operation that is computed within a cycle. -/
theorem expected_of_combinational {o : Operation} (built : o.combinational = true) :
    ∃ two : Bool, expected o = { Dec.fromAcc o.op with isMulticycle := two } ∧
      (two = true → o = .clmul ∨ o = .clmulh) := by
  cases o <;> simp only [Operation.combinational, Bool.false_eq_true] at built
  case clmul => exact ⟨true, rfl, fun _ => .inl rfl⟩
  case clmulh => exact ⟨true, rfl, fun _ => .inr rfl⟩
  all_goals exact ⟨false, rfl, fun impossible => by contradiction⟩

/-- A served operation is computed in the cycle it is presented. -/
theorem combinational_of_served {active : Bool} {dataOp : BitVec 32} {o : Operation}
    (named : operationOf dataOp = some o) (serves : served active dataOp = true) :
    o.combinational = true ∧ o ≠ .clmulr ∧ ((!active) = true ∨ o.shifts = false) ∧
      (o = .clmul ∨ o = .clmulh → active = true) := by
  rw [served, named] at serves
  cases o <;> cases active <;> simp [Operation.combinational, Operation.shifts] at serves ⊢

namespace IntSs

variable {Id : Type} {s : IntSs} {i : Input Id}

/-- **The response to a served request**, in the cycle it is presented. -/
theorem responds (valid : i.accReqValid = true) (offloaded : Offloaded i.accReq.dataOp)
    (serves : served s.multicycleActive i.accReq.dataOp = true) :
    s.validInst i = true ∧ (dec i).resultSelect = .resAccBus ∧
      s.accResp i = answer s.mem i.accReq := by
  rcases offloaded.decodes with ⟨o, named, arm⟩ | ⟨moved, arm⟩
  · obtain ⟨built, other, fresh, second⟩ := combinational_of_served named serves
    obtain ⟨two, value, products⟩ := expected_of_combinational built
    have taken : dec i = { Dec.fromAcc o.op with isMulticycle := two } := (arm other).trans value
    have ready : (!two || s.multicycleActive) = true := by
      cases two with
      | false => rfl
      | true => rw [second (products rfl), Bool.or_true]
    have computed : s.aluResult i =
        o.apply (i.accReq.dataArga.setWidth 32) (i.accReq.dataArgb.setWidth 32) := by
      unfold aluResult aluOperand0 aluOperand1
      rw [taken]
      exact result_op built fresh
    refine ⟨?_, by rw [taken]; rfl, ?_⟩
    · rw [validInst, taken, valid]
      exact ready
    · rw [accResp, computed, answer, named, taken]
      rfl
  · have taken : dec i = expectedMove := arm
    have computed : s.aluResult i = s.mem (rs1 i) := by
      unfold aluResult aluOperand0 aluOperand1
      rw [taken]
      exact BitVec.or_zero
    refine ⟨?_, by rw [taken]; rfl, ?_⟩
    · rw [validInst, taken, valid]
      rfl
    · rw [accResp, computed, answer, moved, taken]
      rfl

/-- One cycle: a request is accepted when its response is handed over, and the register
file stays. -/
theorem serves_cycle (condition : i.accReqValid = true →
      Offloaded i.accReq.dataOp ∧ served s.multicycleActive i.accReq.dataOp = true) :
    (s.obs i).handed = (s.obs i).accepted.map (answer s.mem) ∧ (s.next i).mem = s.mem := by
  cases valid : i.accReqValid with
  | false =>
    have idle : s.validInst i = false := by rw [validInst, valid, Bool.false_and]
    constructor
    · simp [obs, accRespValid, valid, idle]
    · funext r
      simp [next, intWe, idle]
  | true =>
    obtain ⟨offloaded, serves⟩ := condition valid
    obtain ⟨now, onBus, response⟩ := responds valid offloaded serves
    have responding : s.accRespValid i = true := by simp [accRespValid, now, onBus]
    constructor
    · cases taken : i.accRespReady <;>
        simp [obs, accReqReady, stall, responding, valid, taken, response]
    · funext r
      simp [next, intWe, onBus]

variable (Id) in
/-- Requests the core offloads, at any time. -/
def offloadedEnv : Machine.Env IntSs (Input Id) (Obs Id) := fun _ _ i =>
  i.accReqValid = true → Offloaded i.accReq.dataOp

variable (Id) in
/-- Such requests, each presented when it is served. -/
def servedEnv : Machine.Env IntSs (Input Id) (Obs Id) := fun _ s i =>
  i.accReqValid = true → Offloaded i.accReq.dataOp ∧ served s.multicycleActive i.accReq.dataOp = true

/-- The requests accepted so far, ... -/
def requests (past : List (Obs Id)) : List (AccReq Id) := past.filterMap Obs.accepted

/-- ... and the responses handed over. -/
def responses (past : List (Obs Id)) : List (AccResp Id) := past.filterMap Obs.handed

/-- Every request accepted so far has been answered, once and in order, and the register
file is as it was. -/
def Answered (mem : BitVec 5 → BitVec 32) (past : List (Obs Id)) (s : IntSs) : Prop :=
  responses past = (requests past).map (answer mem) ∧ s.mem = mem

/-- **Every request is answered exactly once while the subsystem serves what it is
given**, whatever it was given before. -/
theorem answers_requests (start : IntSs) {past : List (Obs Id)} {s : IntSs}
    (reached : (machine Id).Reaches (servedEnv Id) start past s) : Answered start.mem past s := by
  refine reached.invariant (Answered start.mem) ⟨rfl, rfl⟩ ?_
  intro past s i _ inv condition
  obtain ⟨paired, kept⟩ := inv
  obtain ⟨handed, still⟩ := serves_cycle condition
  rw [kept] at handed
  constructor
  · have step : (((machine Id).obs s i).handed).toList =
        (((machine Id).obs s i).accepted.toList).map (answer start.mem) := by
      rw [show ((machine Id).obs s i).handed = _ from handed]
      exact Option.toList_map
    unfold responses requests at paired ⊢
    rw [filterMap_concat, filterMap_concat, List.map_append, paired, step]
  · exact still.trans kept

/-- `andn x1, x2, x3`, held back for a cycle. -/
def andnIn (ready : Bool) : Input (BitVec 5) where
  accReq := { id := 1, dataOp := 0x403170b3, dataArga := 0xff, dataArgb := 0x0f }
  accReqValid := true
  accRespReady := ready

theorem offloaded_andn : Offloaded (andnIn true).accReq.dataOp :=
  ⟨Core.smallCfg, Core.PrivLvlM, false, ⟨false, false⟩, by decide⟩

/-- The answer, after a cycle of waiting. -/
theorem answers_requests_andn :
    (responses ((machine (BitVec 5)).trace {} [andnIn false, andnIn true])) =
      [{ id := 1, error := false, data := 0xf0 }] := by
  have reached : (machine (BitVec 5)).Reaches (servedEnv (BitVec 5)) {}
      ((machine (BitVec 5)).trace {} [andnIn false, andnIn true])
      ((machine (BitVec 5)).run {} [andnIn false, andnIn true]) := by
    refine (machine (BitVec 5)).reaches_run {} _ ⟨fun _ => ?_, fun _ => ?_, trivial⟩
    · exact ⟨offloaded_andn, by decide⟩
    · exact ⟨offloaded_andn, by decide⟩
  exact (answers_requests {} reached).1.trans (by decide)

/-- `crc32.w x1, x2`. -/
def crcIn : Input (BitVec 5) where
  accReq := { id := 1, dataOp := 0x61211093, dataArga := 1, dataArgb := 0 }
  accReqValid := true
  accRespReady := true

/-- **A redundancy check is popped without an answer**: its first cycle shows no response
and so does not stall. -/
theorem crc_unanswered : ¬∀ past s,
    (machine (BitVec 5)).Reaches (offloadedEnv (BitVec 5)) {} past s →
      Answered (fun _ => 0) past s := by
  intro always
  have offloaded : Offloaded crcIn.accReq.dataOp :=
    ⟨Core.smallCfg, Core.PrivLvlM, false, ⟨false, false⟩, by decide⟩
  have reached : (machine (BitVec 5)).Reaches (offloadedEnv (BitVec 5)) {}
      ((machine (BitVec 5)).trace {} [crcIn]) ((machine (BitVec 5)).run {} [crcIn]) :=
    (machine (BitVec 5)).reaches_run {} [crcIn] ⟨fun _ => offloaded, trivial⟩
  have paired := (always _ _ reached).1
  have lengths := congrArg List.length paired
  revert lengths
  decide

end IntSs

end SnitchCluster.Ipu
