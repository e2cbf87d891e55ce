/-
# Core.Accelerators -- what a missing accelerator leaves in the decoder

An arm of the decoder names the accelerator it hands its words to, and most arms ask for its
parameter: where that is zero, the word is illegal.  Three groups of arms do not.  The
bit-manipulation instructions are handed to the integer subsystem of any core, the enables of
the chaining and stream registers to the FP subsystem of any core, and the vectorial words
under a guard without an `else` decode to the defaults.  `guarded_iff` says that nothing else
escapes.
-/
import SnitchCluster.Core.FloatDecode

namespace SnitchCluster.Core

open Theory
open Theory.BitPat
open Instr Dec

/-! ## Which accelerator a word is for -/

/-- The parameter of an accelerator; the multiplier is always there. -/
def Cfg.has (C : Cfg) : AccAddr → Bool
  | .intSs => C.Xipu
  | .dmaSs => C.Xdma
  | .ssrCfg => C.Xssr
  | .fpSs => C.FP_EN
  | .sharedMuldiv => true

abbrev TargetArm := Arm 32 (Option AccAddr)

def meant (unit : Option AccAddr) (arms : List DecArm) : List TargetArm :=
  arms.map fun arm => (arm.1, unit)

/-- The CSR accesses.  `sc` and `ssr` say that the word addresses the register of the chaining
or the stream enables. -/
def csrTargets (sc ssr : Bool) : List TargetArm :=
  [ ([CSRRW], none), ([CSRRWI], none), ([CSRRS], if sc then some .fpSs else none),
    ([CSRRSI], if ssr then some .fpSs else none), ([CSRRC], if sc then some .fpSs else none),
    ([CSRRCI], if ssr then some .fpSs else none) ]

/-- The arms behind, whose accelerator their patterns tell. -/
def laterTargets : List TargetArm :=
  meant none (systemArms 0 false) ++ meant none atomicArms ++
    (meant (some .sharedMuldiv) ((intSsArms {}).take 1) ++
      meant (some .intSs) ((intSsArms {}).drop 1)) ++
    meant (some .fpSs) (floatArms {} {} 0) ++
    (meant (some .dmaSs) ((customArms {}).take 7) ++
      meant (some .ssrCfg) ((customArms {}).drop 7))

/-- The arms of the decoder, by the accelerator their words are for. -/
def targetArms (sc ssr : Bool) : List TargetArm :=
  meant none baseArms ++ csrTargets sc ssr ++ laterTargets

section Target

variable (inst : BitVec 32)

/-- The word addresses the register of the chaining enables. -/
def isSc : Bool := inst.extractLsb' 20 12 == CSR_SC

def isSsr : Bool := inst.extractLsb' 20 12 == CSR_SSR

/-- The accelerator the word is for, whatever the core has. -/
def target : Option AccAddr := firstMatch (targetArms (isSc inst) (isSsr inst)) none inst

/-- The bit-manipulation instructions on integer registers. -/
def bitManip : List (BitPat 32) := ((intSsArms {}).drop 1).take 2 |>.flatMap Prod.fst

/-- A word that switches chaining or the streams on or off. -/
def enables : Bool :=
  (inside inst [CSRRS, CSRRC] && isSc inst) || (inside inst [CSRRSI, CSRRCI] && isSsr inst)

/-- The words for an accelerator whose arms do not ask for its parameter. -/
def unasked : AccAddr → Bool
  | .intSs => inside inst bitManip
  | .fpSs => enables inst || inside inst guardedPatterns
  | _ => false

end Target

/-- What the decoder yields for a word that is for `unit`, if for any. -/
structure Matches (C : Cfg) (inst : BitVec 32) (d : Dec) (unit : Option AccAddr) : Prop where
  address : d.accQvalid = true → unit = some d.accAddr
  legal : ∀ a, unit = some a → C.has a = false → (d.illegalInst = true ↔ unasked inst a = false)

/-! ## The arms, group by group -/

section Groups

variable {C : Cfg} {inst : BitVec 32} {d : Dec} {unit : Option AccAddr}

theorem matches_none (silent : d.accQvalid = false) : Matches C inst d none where
  address := by simp [silent]
  legal := by simp

/-- An arm that asks for the parameter of its accelerator. -/
theorem matches_offload {a : AccAddr} {present : Bool} (here : d.accAddr = a)
    (asks : C.has a = false → present = false) (clear : unasked inst a = false) :
    Matches C inst (offload present d) (some a) := by
  constructor
  · intro sent
    cases present with
    | true => simp [offload, here]
    | false => contradiction
  · intro b same missing
    simp only [Option.some.injEq] at same
    subst same
    simp [asks missing, offload, illegal, clear]

/-- An arm that does not ask. -/
theorem matches_unasked {a : AccAddr} (here : d.accAddr = a) (plain : d.illegalInst = false)
    (slips : unasked inst a = true) : Matches C inst (offload true d) (some a) := by
  constructor
  · intro sent
    simp [offload, here]
  · intro b same missing
    simp only [Option.some.injEq] at same
    subst same
    simp [offload, plain, slips]

theorem systemArms_matches {privLvl : PrivLvl} {debug : Bool} :
    ∀ arm ∈ systemArms privLvl debug, Matches C inst arm.2 none := by
  have silent : ∀ arm ∈ systemArms privLvl debug, arm.2.accQvalid = false := by
    simp only [systemArms, List.forall_mem_cons]
    refine ⟨by simp, by simp, ?_, ?_, ?_, by simp, by simp, ?_, ?_, by simp⟩ <;>
      exact ite_all (fun d => d.accQvalid = false) rfl rfl
  exact fun arm member => matches_none (silent arm member)

set_option maxRecDepth 4000 in
theorem intSsArms_matches :
    (∀ arm ∈ (intSsArms C).take 1, Matches C inst arm.2 (some .sharedMuldiv)) ∧
      ∀ arm ∈ (intSsArms C).drop 1, inside inst arm.1 = true →
        Matches C inst arm.2 (some .intSs) := by
  have asks {d : Dec} {ps : List (BitPat 32)} (here : d.accAddr = .intSs)
      (clear : ∀ p ∈ ps, ∀ q ∈ bitManip, apart p q = true) (met : inside inst ps = true) :
      Matches C inst (offload C.Xipu d) (some .intSs) :=
    matches_offload here id (outside clear met)
  have manip {d : Dec} {ps : List (BitPat 32)} (here : d.accAddr = .intSs)
      (plain : d.illegalInst = false) (sub : ∀ p ∈ ps, p ∈ bitManip)
      (met : inside inst ps = true) : Matches C inst (offload true d) (some .intSs) :=
    matches_unasked here plain (inside_of_subset sub met)
  constructor
  · simp only [intSsArms, List.take_succ_cons, List.take_zero, List.forall_mem_singleton]
    exact ⟨fun _ => rfl, by simp [Cfg.has]⟩
  · simp only [intSsArms, List.drop_succ_cons, List.drop_zero, List.forall_mem_cons]
    refine ⟨manip rfl rfl (by decide), manip rfl rfl (by decide), asks rfl (by decide),
      asks rfl (by decide), asks rfl (by decide), asks rfl (by decide), by simp⟩

theorem customArms_matches :
    (∀ arm ∈ (customArms C).take 7, Matches C inst arm.2 (some .dmaSs)) ∧
      ∀ arm ∈ (customArms C).drop 7, Matches C inst arm.2 (some .ssrCfg) := by
  have dma {d : Dec} (here : d.accAddr = .dmaSs) :
      Matches C inst (offload C.Xdma d) (some .dmaSs) := matches_offload here id rfl
  have ssr {d : Dec} (here : d.accAddr = .ssrCfg) :
      Matches C inst (offload C.Xssr d) (some .ssrCfg) := matches_offload here id rfl
  constructor
  · simp only [customArms, List.take_succ_cons, List.take_zero, List.forall_mem_cons]
    exact ⟨dma rfl, dma rfl, dma rfl, dma rfl, dma rfl, dma rfl, dma rfl, by simp⟩
  · simp only [customArms, List.drop_succ_cons, List.drop_zero, List.forall_mem_cons]
    exact ⟨ssr rfl, ssr rfl, ssr rfl, ssr rfl, by simp⟩

/-! ### The FP subsystem -/

variable {fmode : FmtMode}

theorem floatArms_address {arm : DecArm} (member : arm ∈ floatArms C fmode inst) :
    arm.2.accAddr = .fpSs ∨ arm.2.accQvalid = false := by
  have arith : ∀ d ∈ fpValues, d.accAddr = .fpSs ∨ d.accQvalid = false := by decide
  have toInt : ∀ d ∈ fpToIntValues, d.accAddr = .fpSs ∨ d.accQvalid = false := by decide
  have fromInt : ∀ d ∈ intToFpValues, d.accAddr = .fpSs ∨ d.accQvalid = false := by decide
  have access : ∀ d ∈ fpAccessValues, d.accAddr = .fpSs ∨ d.accQvalid = false := by decide
  simp only [floatArms, List.mem_append] at member
  rcases member with ((among | among) | among) | among
  · exact arith _ (fpArms_values _ _ _ _ among)
  · exact toInt _ (fpToIntArms_values _ _ _ among)
  · exact fromInt _ (intToFpArms_values _ _ _ among)
  · exact access _ (fpAccessArms_values _ _ among)

/-- Without the FP subsystem its arms are illegal, or the defaults. -/
theorem floatArms_missing (missing : C.FP_EN = false) {arm : DecArm}
    (member : arm ∈ floatArms C fmode inst) : arm.2 = illegal ∨ arm.2 = {} := by
  have none : ∀ arm ∈ floatArms C fmode inst, arm.2 = illegal ∨ arm.2 = {} := by
    simp [floatArms, fpArms, fpToIntArms, intToFpArms, fpAccessArms, offload, fpAccess, missing]
  exact none arm member

/-- A word of a floating-point arm is no access to a CSR. -/
theorem floatArms_enables {arm : DecArm} (member : arm ∈ floatArms C fmode inst)
    (met : inside inst arm.1 = true) : enables inst = false := by
  have pattern : arm.1 ∈ floatPatterns := by
    rw [← floatArms_patterns C fmode inst]
    exact List.mem_map_of_mem member
  have float : isFloat inst = true :=
    isFloat_of_inside (fun p among => List.mem_flatten.mpr ⟨arm.1, pattern, among⟩) met
  have passed : ∀ arm ∈ earlyArms C 0 false inst, inside inst arm.1 = false := float_early float
  have early : ∀ arm ∈ csrArms inst, inside inst arm.1 = false := by
    intro arm among
    apply passed
    simp only [earlyArms, List.mem_append]
    exact Or.inl (Or.inl (Or.inl (Or.inr among)))
  simp only [csrArms, List.forall_mem_cons, inside, List.any_cons, List.any_nil,
    Bool.or_false] at early
  obtain ⟨-, -, rs, rsi, rc, rci, -⟩ := early
  simp [enables, inside, rs, rsi, rc, rci]

theorem floatArms_matches {arm : DecArm} (member : arm ∈ floatArms C fmode inst)
    (met : inside inst arm.1 = true) : Matches C inst arm.2 (some .fpSs) := by
  constructor
  · intro sent
    rcases floatArms_address member with here | silent
    · rw [here]
    · rw [silent] at sent
      contradiction
  · intro a same missing
    simp only [Option.some.injEq] at same
    subst same
    have absent : C.FP_EN = false := missing
    have settled := floatArms_settled member met
    have guards : unguarded C inst = inside inst guardedPatterns := by
      simp [unguarded, guardedPatterns, inside, absent, Bool.or_assoc]
    have clear : enables inst = false := floatArms_enables member met
    rw [guards] at settled
    rw [unasked, clear, Bool.false_or, ← settled]
    rcases floatArms_missing absent member with trap | plain
    · rw [trap]; decide
    · rw [plain]; decide

/-! ### CSR accesses -/

theorem csrArms_matches : List.Forall₂
    (fun a b => a.1 = b.1 ∧ (inside inst a.1 = true → Matches C inst a.2 b.2)) (csrArms inst)
    (csrTargets (isSc inst) (isSsr inst)) := by
  have access {p : BitPat 32} {addr : BitVec 12} {d e : Dec} (silent : d.accQvalid = false)
      (here : e.accAddr = .fpSs) (plain : e.illegalInst = false)
      (slips : p.test inst = true → (inst.extractLsb' 20 12 == addr) = true → enables inst = true)
      (met : inside inst [p] = true) :
      Matches C inst (if inst.extractLsb' 20 12 != addr then d else offload true e)
        (if inst.extractLsb' 20 12 == addr then some .fpSs else none) := by
    cases same : inst.extractLsb' 20 12 == addr with
    | false =>
      rw [bne, same]
      exact matches_none silent
    | true =>
      have enabled := slips (by simpa [inside] using met) same
      rw [bne, same]
      exact matches_unasked here plain (by simp [unasked, enabled])
  refine .cons ⟨rfl, fun _ => matches_none rfl⟩ (.cons ⟨rfl, fun _ => matches_none rfl⟩
    (.cons ⟨rfl, access rfl rfl rfl ?_⟩ (.cons ⟨rfl, access rfl rfl rfl ?_⟩
      (.cons ⟨rfl, access rfl rfl rfl ?_⟩ (.cons ⟨rfl, access rfl rfl rfl ?_⟩ .nil)))))
  all_goals
    intro met here
    simp [enables, inside, isSc, isSsr, met, here]

/-! ## Every word -/

theorem pairs_meant {arms others : List DecArm} (same : arms.map Prod.fst = others.map Prod.fst)
    (each : ∀ arm ∈ arms, inside inst arm.1 = true → Matches C inst arm.2 unit) :
    List.Forall₂ (fun a b => a.1 = b.1 ∧ (inside inst a.1 = true → Matches C inst a.2 b.2)) arms
      (meant unit others) := by
  have tagged : meant unit others = meant unit arms := by
    have through : ∀ l : List DecArm, meant unit l = (l.map Prod.fst).map (·, unit) := by
      simp [meant]
    rw [through, through, same]
  rw [tagged, meant, List.forall₂_map_right_iff, List.forall₂_same]
  exact fun arm member => ⟨rfl, each arm member⟩

variable {privLvl : PrivLvl} {debug : Bool}

/-- **A word is sent to no accelerator but its own, and without it the word is illegal unless
it is unasked.** -/
theorem decode_matches :
    Matches C inst (decode C privLvl debug fmode inst) (target inst) := by
  have base : ∀ arm ∈ baseArms, arm.2.accQvalid = false := by decide
  have atomic : ∀ arm ∈ atomicArms, arm.2.accQvalid = false := by decide
  obtain ⟨muldiv, intSs⟩ := @intSsArms_matches C inst
  obtain ⟨dma, ssr⟩ := @customArms_matches C inst
  have split : decoderArms C privLvl debug fmode inst =
      baseArms ++ csrArms inst ++ (systemArms privLvl debug ++ atomicArms ++
        ((intSsArms C).take 1 ++ (intSsArms C).drop 1) ++ floatArms C fmode inst ++
        ((customArms C).take 7 ++ (customArms C).drop 7)) := by
    simp only [List.take_append_drop, decoderArms, floatArms, List.append_assoc]
  rw [decode, split, target, targetArms]
  refine firstMatch_related (R := Matches C inst) ?_ (matches_none rfl)
  refine List.rel_append (List.rel_append ?_ csrArms_matches) (List.rel_append (List.rel_append
    (List.rel_append (List.rel_append ?_ ?_) (List.rel_append ?_ ?_)) ?_) (List.rel_append ?_ ?_))
  · exact pairs_meant rfl fun arm member _ => matches_none (base arm member)
  · exact pairs_meant rfl fun arm member _ => systemArms_matches arm member
  · exact pairs_meant rfl fun arm member _ => matches_none (atomic arm member)
  · exact pairs_meant rfl fun arm member _ => muldiv arm member
  · exact pairs_meant rfl intSs
  · exact pairs_meant rfl fun arm => floatArms_matches
  · exact pairs_meant rfl fun arm member _ => dma arm member
  · exact pairs_meant rfl fun arm member _ => ssr arm member

end Groups

/-! ## The unasked words have an accelerator -/

/-- Of the arms that are no CSR access, one of the accelerator has the pattern, and no other
arm shares a word with it. -/
structure Owned (a : AccAddr) (p : BitPat 32) : Prop where
  here : ∃ arm ∈ laterTargets, p ∈ arm.1 ∧ arm.2 = some a
  base : ∀ other ∈ baseArms, ∀ q ∈ other.1, apart p q = true
  csr : ∀ other ∈ csrTargets false false, ∀ q ∈ other.1, apart p q = true
  later : ∀ other ∈ laterTargets, other.2 = some a ∨ ∀ q ∈ other.1, apart p q = true

theorem csrTargets_patterns (sc ssr : Bool) :
    (csrTargets sc ssr).map Prod.fst = (csrTargets false false).map Prod.fst := rfl

theorem target_owned {inst : BitVec 32} {a : AccAddr} {p : BitPat 32} (owned : Owned a p)
    (met : p.test inst = true) : target inst = some a := by
  obtain ⟨arm, member, among, value⟩ := owned.here
  have csr : ∀ other ∈ csrTargets (isSc inst) (isSsr inst), ∀ q ∈ other.1, apart p q = true := by
    intro other there
    have pattern : other.1 ∈ (csrTargets false false).map Prod.fst := by
      rw [← csrTargets_patterns (isSc inst) (isSsr inst)]
      exact List.mem_map_of_mem there
    obtain ⟨first, early, same⟩ := List.mem_map.mp pattern
    exact same ▸ owned.csr first early
  have present : arm ∈ targetArms (isSc inst) (isSsr inst) := List.mem_append_right _ member
  rw [target, firstMatch_value present among ?_ none met, value]
  intro other there
  simp only [targetArms, List.mem_append] at there
  rcases there with (base | access) | later
  · obtain ⟨plain, first, rfl⟩ := List.mem_map.mp base
    exact Or.inr (owned.base plain first)
  · exact Or.inr (csr other access)
  · exact value ▸ owned.later other later

theorem bitManip_owned : ∀ p ∈ bitManip, Owned .intSs p := by
  have here : ∀ p ∈ bitManip, ∃ arm ∈ laterTargets, p ∈ arm.1 ∧ arm.2 = some .intSs := by
    decide +kernel
  have base : ∀ p ∈ bitManip, ∀ other ∈ baseArms, ∀ q ∈ other.1, apart p q = true := by
    decide +kernel
  have csr : ∀ p ∈ bitManip, ∀ other ∈ csrTargets false false, ∀ q ∈ other.1,
      apart p q = true := by
    decide +kernel
  have later : ∀ p ∈ bitManip, ∀ other ∈ laterTargets,
      other.2 = some .intSs ∨ ∀ q ∈ other.1, apart p q = true := by
    decide +kernel
  exact fun p among => ⟨here p among, base p among, csr p among, later p among⟩

theorem guardedPatterns_owned : ∀ p ∈ guardedPatterns, Owned .fpSs p := by
  have here : ∀ p ∈ guardedPatterns, ∃ arm ∈ laterTargets, p ∈ arm.1 ∧ arm.2 = some .fpSs := by
    decide +kernel
  have base : ∀ p ∈ guardedPatterns, ∀ other ∈ baseArms, ∀ q ∈ other.1, apart p q = true := by
    decide +kernel
  have csr : ∀ p ∈ guardedPatterns, ∀ other ∈ csrTargets false false, ∀ q ∈ other.1,
      apart p q = true := by
    decide +kernel
  have later : ∀ p ∈ guardedPatterns, ∀ other ∈ laterTargets,
      other.2 = some .fpSs ∨ ∀ q ∈ other.1, apart p q = true := by
    decide +kernel
  exact fun p among => ⟨here p among, base p among, csr p among, later p among⟩

/-- A word that meets the pattern of a CSR access takes its arm. -/
theorem target_csr {inst : BitVec 32} {p : BitPat 32} {unit : Option AccAddr} (k : Nat)
    (here : (csrTargets (isSc inst) (isSsr inst))[k]? = some ([p], unit))
    (base : ∀ other ∈ baseArms, ∀ q ∈ other.1, apart p q = true)
    (before : ∀ ps ∈ ((csrTargets false false).map Prod.fst).take k, ∀ q ∈ ps, apart p q = true)
    (met : p.test inst = true) : target inst = unit := by
  have hit : inside inst [p] = true := by simp [inside, met]
  have missed : ∀ arm ∈ meant none baseArms, inside inst arm.1 = false := by
    intro arm among
    obtain ⟨plain, first, rfl⟩ := List.mem_map.mp among
    exact outside (by simpa using base plain first) hit
  rw [target, targetArms, List.append_assoc, firstMatch_skip _ _ missed,
    firstMatch_front _ _ ⟨_, List.mem_of_getElem? here, hit⟩]
  refine firstMatch_at here none ?_ hit
  intro ps earlier
  rw [csrTargets_patterns] at earlier
  exact outside (by simpa using before ps earlier) hit

theorem target_enables {inst : BitVec 32} (switches : enables inst = true) :
    target inst = some .fpSs := by
  simp only [enables, inside, List.any_cons, List.any_nil, Bool.or_false, Bool.or_eq_true,
    Bool.and_eq_true] at switches
  rcases switches with ⟨rs | rc, sc⟩ | ⟨rsi | rci, ssr⟩
  · exact target_csr 2 (by simp [csrTargets, sc]) (by decide) (by decide) rs
  · exact target_csr 4 (by simp [csrTargets, sc]) (by decide) (by decide) rc
  · exact target_csr 3 (by simp [csrTargets, ssr]) (by decide) (by decide) rsi
  · exact target_csr 5 (by simp [csrTargets, ssr]) (by decide) (by decide) rci

theorem target_unasked {inst : BitVec 32} {a : AccAddr} (slips : unasked inst a = true) :
    target inst = some a := by
  cases a with
  | intSs =>
    obtain ⟨p, among, met⟩ := List.any_eq_true.mp slips
    exact target_owned (bitManip_owned p among) met
  | fpSs =>
    simp only [unasked, Bool.or_eq_true] at slips
    rcases slips with switches | among
    · exact target_enables switches
    · obtain ⟨p, member, met⟩ := List.any_eq_true.mp among
      exact target_owned (guardedPatterns_owned p member) met
  | dmaSs | ssrCfg | sharedMuldiv => contradiction

/-! ## The core -/

namespace State

variable {C : Cfg} {P : LsuParts C} (s : State P) (i : Input C)

/-- The scoreboard marks `rd` as pending for the instruction. -/
def registersRd : Bool :=
  ((s.dec i).isLoad || (s.dec i).accRegisterRd) && !s.stall i && !s.exception i

/-- The instruction is illegal, marks no register and writes none. -/
def Refused : Prop :=
  (s.dec i).illegalInst = true ∧ s.registersRd i = false ∧ s.retireI i = false

/-- Only accelerators that are there are addressed, and a word for one that is not is
refused. -/
structure Guarded : Prop where
  addressed : s.accQvalid i = true → C.has (s.dec i).accAddr = true
  refused : ∀ a, target i.instData = some a → C.has a = false → s.Refused i

variable {s i}

theorem refused_iff : s.Refused i ↔ (s.dec i).illegalInst = true := by
  constructor
  · exact fun refused => refused.1
  · intro trap
    have trapped : s.exception i = true := by simp [exception, trap]
    exact ⟨trap, by simp [registersRd, trapped], by simp [retireI, writeRd, trapped]⟩

variable (s i) in
/-- **A missing accelerator is addressed by no word exactly if its arms ask for it.** -/
theorem guarded_iff :
    s.Guarded i ↔ ∀ a, unasked i.instData a = true → C.has a = true := by
  have known : Matches C i.instData (s.dec i) (target i.instData) := decode_matches
  constructor
  · intro guarded a slips
    by_contra missing
    have absent : C.has a = false := by simpa using missing
    have mine := target_unasked slips
    have trap := (guarded.refused a mine absent).1
    rw [known.legal a mine absent, slips] at trap
    contradiction
  · intro asked
    have refused : ∀ a, target i.instData = some a → C.has a = false → s.Refused i := by
      intro a mine absent
      rw [refused_iff, known.legal a mine absent]
      by_contra slips
      rw [asked a (by simpa using slips)] at absent
      contradiction
    refine ⟨?_, refused⟩
    intro sent
    by_contra missing
    simp only [accQvalid, Bool.and_eq_true, Bool.not_eq_true'] at sent
    obtain ⟨⟨⟨offers, -⟩, -⟩, ordinary⟩ := sent
    obtain ⟨trap, -⟩ := refused _ (known.address offers) (by simpa using missing)
    simp [exception, trap] at ordinary

/-! ### Words without an accelerator -/

/-- A core with neither the integer nor the FP subsystem. -/
def bareCfg : Cfg := { smallCfg with RVF := false, FP_EN := false, Xipu := false }

def bareParts : LsuParts bareCfg := LsuParts.ofList bareCfg

/-- **A bit-manipulation instruction is sent to a subsystem that is not there**: `andn x10, x0, x0`
leaves its register pending.  And `vfeq.h x10, f0, f0` writes its register. -/
theorem missing_addressed :
    (¬(State.reset bareParts).Guarded { instData := 0x40007533 } ∧
      (State.reset bareParts).accQvalid { instData := 0x40007533 } = true ∧
      ((State.reset bareParts).next { instData := 0x40007533 }).sb 10 = true) ∧
    (¬(State.reset bareParts).Guarded { instData := 0xa0002533 } ∧
      (State.reset bareParts).retireI { instData := 0xa0002533 } = true) := by
  refine ⟨⟨fun guarded => ?_, by decide, by decide⟩, fun guarded => ?_, by decide⟩
  · exact absurd ((guarded_iff _ _).mp guarded .intSs (by decide)) (by decide)
  · exact absurd ((guarded_iff _ _).mp guarded .fpSs (by decide)) (by decide)

end State

end SnitchCluster.Core
