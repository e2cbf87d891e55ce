/-
# Core.FloatDecode -- floating-point words are offloaded or illegal

Each floating-point arm of the decoder hands its word to the FP subsystem if the
configuration has what the word needs, and is illegal otherwise; one that divides
or takes a root also needs `XDivSqrt`.  Six arms say so only under an outer guard
that has no `else`: where that guard fails, the word is neither offloaded nor
illegal, and the defaults write its destination register.  One arm excludes the
vectorial divisions from its alternate format where its words are scalar.
`decisive_iff` says that these are the only exceptions.
-/
import SnitchCluster.Core.Step

namespace SnitchCluster.Core

open Theory
open Theory.BitPat
open Instr Dec

/-! ## The floating-point words -/

/-- The arms of the FP subsystem. -/
def floatArms (C : Cfg) (fmode : FmtMode) (inst : BitVec 32) : List DecArm :=
  fpArms C fmode inst ++ fpToIntArms C fmode ++ intToFpArms C fmode ++ fpAccessArms C

/-- The patterns of these arms, which no parameter changes. -/
def floatPatterns : List (List (BitPat 32)) := (floatArms {} {} 0).map Prod.fst

/-- The word is matched by a floating-point arm. -/
def isFloat (inst : BitVec 32) : Bool := inside inst floatPatterns.flatten

def scalarRootsS : List (BitPat 32) := [FDIV_S, FSQRT_S]
def scalarRootsD : List (BitPat 32) := [FDIV_D, FSQRT_D]
def scalarRootsH : List (BitPat 32) := [FDIV_H, FSQRT_H]
def vectorRootsS : List (BitPat 32) := [VFDIV_S, VFDIV_R_S, VFSQRT_S]
def vectorRootsH : List (BitPat 32) := [VFDIV_H, VFDIV_R_H, VFSQRT_H]
def vectorRootsB : List (BitPat 32) := [VFDIV_B, VFDIV_R_B, VFSQRT_B]

/-- Divisions and square roots, scalar and vectorial, of every format. -/
def rootPatterns : List (BitPat 32) :=
  scalarRootsS ++ scalarRootsD ++ scalarRootsH ++ vectorRootsS ++ vectorRootsH ++ vectorRootsB

/-- Half-precision comparisons and classifications of vectors. -/
def halfCompares : List (BitPat 32) :=
  [VFEQ_H, VFEQ_R_H, VFNE_H, VFNE_R_H, VFLT_H, VFLT_R_H, VFGE_H, VFGE_R_H, VFLE_H, VFLE_R_H,
    VFGT_H, VFGT_R_H, VFCLASS_H]

/-- Moves and conversions between a half-precision vector and an integer register. -/
def halfMoves : List (BitPat 32) :=
  [VFMV_X_H, VFCVT_X_H, VFCVT_XU_H, VFMV_H_X, VFCVT_H_X, VFCVT_H_XU]

def byteCompares : List (BitPat 32) :=
  [VFEQ_B, VFEQ_R_B, VFNE_B, VFNE_R_B, VFLT_B, VFLT_R_B, VFGE_B, VFGE_R_B, VFLE_B, VFLE_R_B,
    VFGT_B, VFGT_R_B]

def byteMoves : List (BitPat 32) :=
  [VFMV_X_B, VFCLASS_B, VFCVT_X_B, VFCVT_XU_B, VFMV_B_X, VFCVT_B_X, VFCVT_B_XU]

/-- The words whose arms guard them twice. -/
def guardedPatterns : List (BitPat 32) := halfCompares ++ halfMoves ++ byteCompares ++ byteMoves

section Exceptions

variable (C : Cfg) (fmode : FmtMode) (inst : BitVec 32)

/-- The word is matched by an arm whose outer guard fails, and has no `else`. -/
def unguarded : Bool :=
  (inside inst halfCompares && !(C.FP_EN && C.XFVEC && decide (C.FLEN ≥ 32))) ||
    (inside inst halfMoves && !(C.FP_EN && C.XFVEC && decide (C.FLEN ≥ 32) && !C.RVD)) ||
    (inside inst byteCompares && !(C.FP_EN && C.XFVEC && decide (C.FLEN ≥ 16))) ||
    (inside inst byteMoves && !(C.FP_EN && C.XFVEC && decide (C.FLEN ≥ 16) && !C.RVD))

/-- A scalar division or root in the alternate half-precision format, without the unit. -/
def alternateRoot : Bool :=
  inside inst scalarRootsH && (C.FP_EN && C.XF16ALT && fmode.dst && !C.XDivSqrt)

end Exceptions

namespace Dec

variable (d : Dec)

/-- The arm hands its word to the FP subsystem. -/
def toFpSs : Bool := d.accQvalid && d.accAddr == .fpSs

/-- The arm writes an integer register: an illegal word does not, it traps. -/
def writesInteger : Bool := d.writeRd && !d.illegalInst

/-- Offloaded or illegal, one of the two, and no integer register written. -/
def Settled : Prop := d.toFpSs = !d.illegalInst ∧ d.writesInteger = false

instance : Decidable d.Settled := inferInstanceAs (Decidable (_ ∧ _))

/-- Settled, and without the unit no division or root is offloaded. -/
def Decisive (C : Cfg) (inst : BitVec 32) : Prop :=
  d.Settled ∧ (C.XDivSqrt = false → inside inst rootPatterns = true → d.toFpSs = false)

end Dec

/-! ## Which arm a word takes -/

section Arms

variable (C : Cfg) (privLvl : PrivLvl) (debug : Bool) (fmode : FmtMode) (inst : BitVec 32)

/-- The arms before those of the FP subsystem. -/
def earlyArms : List DecArm :=
  baseArms ++ csrArms inst ++ systemArms privLvl debug ++ atomicArms ++ intSsArms C

theorem floatArms_patterns : (floatArms C fmode inst).map Prod.fst = floatPatterns := rfl

theorem earlyArms_patterns :
    (earlyArms C privLvl debug inst).map Prod.fst = (earlyArms {} 0 false 0).map Prod.fst := rfl

/-- The opcodes of the FP subsystem: one of them shares its code with the integer
computations and is told by the two upper bits. -/
def floatOpcodes : List (BitPat 32) :=
  ⟨0xc000007f, 0x80000033⟩ ::
    [0x53, 0x43, 0x47, 0x4b, 0x4f, 0x2b, 0x0b, 0x07, 0x27].map (⟨0x7f, ·⟩)

set_option maxRecDepth 4000 in
theorem floatPatterns_opcode :
    ∀ p ∈ floatPatterns.flatten, ∃ q ∈ floatOpcodes, within p q = true := by
  decide

set_option maxRecDepth 4000 in
/-- The arms before have other opcodes. -/
theorem earlyArms_opcode : ∀ ps ∈ (earlyArms {} 0 false 0).map Prod.fst,
    ∀ q ∈ floatOpcodes, ∀ p ∈ ps, apart q p = true := by
  decide

variable {C privLvl debug fmode inst}

/-- A floating-point word passes the arms before. -/
theorem float_early (float : isFloat inst = true) :
    ∀ early ∈ earlyArms C privLvl debug inst, inside inst early.1 = false := by
  intro early front
  obtain ⟨p, among, met⟩ := List.any_eq_true.mp float
  obtain ⟨q, opcode, inner⟩ := floatPatterns_opcode p among
  have other : early.1 ∈ (earlyArms {} 0 false 0).map Prod.fst := by
    rw [← earlyArms_patterns C privLvl debug inst]
    exact List.mem_map_of_mem front
  rw [inside, List.any_eq_false]
  intro r member
  simpa using apart_sound (earlyArms_opcode _ other q opcode r member) (within_sound inner met)

theorem float_arm (float : isFloat inst = true) :
    ∃ arm ∈ floatArms C fmode inst, inside inst arm.1 = true := by
  obtain ⟨p, among, met⟩ := List.any_eq_true.mp float
  obtain ⟨ps, pattern, inPattern⟩ := List.mem_flatten.mp among
  obtain ⟨arm, member, rfl⟩ := List.mem_map.mp (floatArms_patterns C fmode inst ▸ pattern)
  exact ⟨arm, member, List.any_eq_true.mpr ⟨p, inPattern, met⟩⟩

/-- **A floating-point word reaches the arms of the FP subsystem, and stays there.** -/
theorem decode_float (float : isFloat inst = true) :
    decode C privLvl debug fmode inst = firstMatch (floatArms C fmode inst) illegal inst := by
  have split : decoderArms C privLvl debug fmode inst =
      earlyArms C privLvl debug inst ++ (floatArms C fmode inst ++ customArms C) := by
    simp only [decoderArms, earlyArms, floatArms, List.append_assoc]
  rw [decode, split, firstMatch_skip _ _ (float_early float), firstMatch_front _ _ (float_arm float)]

/-- It takes an arm that it meets. -/
theorem decode_float_mem (float : isFloat inst = true) :
    ∃ arm ∈ floatArms C fmode inst, inside inst arm.1 = true ∧
      decode C privLvl debug fmode inst = arm.2 := by
  rw [decode_float float]
  exact firstMatch_met illegal (float_arm float)

end Arms

/-! ## Offloaded or illegal -/

theorem settled_offload {present : Bool} {d : Dec} (unit : d.accAddr = .fpSs)
    (legal : d.illegalInst = false) : (offload present d).Settled := by
  cases present with
  | true => simp [Settled, offload, toFpSs, writesInteger, unit, legal]
  | false => exact ⟨rfl, rfl⟩

/-- An arm under an outer guard without an `else` is settled where the guard holds. -/
theorem settled_guarded {guard present : Bool} {d : Dec} (unit : d.accAddr = .fpSs)
    (legal : d.illegalInst = false) :
    (if guard = true then offload present d else {}).Settled ↔ guard = true := by
  cases guard with
  | true => simpa using settled_offload unit legal
  | false => simp [Settled, toFpSs, writesInteger]

section Settled

variable {C : Cfg} {fmode : FmtMode} {inst : BitVec 32}

theorem unguarded_outside (clear : inside inst guardedPatterns = false) :
    unguarded C inst = false := by
  simp only [guardedPatterns, inside, List.any_append, Bool.or_eq_false_iff] at clear
  obtain ⟨⟨⟨halfC, halfM⟩, byteC⟩, byteM⟩ := clear
  simp [unguarded, inside, halfC, halfM, byteC, byteM]

/-- An arm whose words have one guard. -/
theorem settled_plain {ps : List (BitPat 32)} {d : Dec} (met : inside inst ps = true)
    (settled : d.Settled) (clear : ∀ p ∈ ps, ∀ q ∈ guardedPatterns, apart p q = true) :
    d.Settled ↔ unguarded C inst = false :=
  iff_of_true settled (unguarded_outside (outside clear met))

/-- A word of some patterns meets a list that has them all. -/
theorem inside_of_subset {ps qs : List (BitPat 32)} (sub : ∀ p ∈ ps, p ∈ qs)
    (met : inside inst ps = true) : inside inst qs = true := by
  obtain ⟨p, among, hit⟩ := List.any_eq_true.mp met
  exact List.any_eq_true.mpr ⟨p, sub p among, hit⟩

theorem unguarded_halfCompares (met : inside inst halfCompares = true) :
    unguarded C inst = !(C.FP_EN && C.XFVEC && decide (C.FLEN ≥ 32)) := by
  have moves : inside inst halfMoves = false := outside (by decide) met
  have compares : inside inst byteCompares = false := outside (by decide) met
  have bytes : inside inst byteMoves = false := outside (by decide) met
  simp [unguarded, met, moves, compares, bytes]

theorem unguarded_halfMoves (met : inside inst halfMoves = true) :
    unguarded C inst = !(C.FP_EN && C.XFVEC && decide (C.FLEN ≥ 32) && !C.RVD) := by
  have halves : inside inst halfCompares = false := outside (by decide) met
  have compares : inside inst byteCompares = false := outside (by decide) met
  have bytes : inside inst byteMoves = false := outside (by decide) met
  simp [unguarded, met, halves, compares, bytes]

theorem unguarded_byteCompares (met : inside inst byteCompares = true) :
    unguarded C inst = !(C.FP_EN && C.XFVEC && decide (C.FLEN ≥ 16)) := by
  have halves : inside inst halfCompares = false := outside (by decide) met
  have moves : inside inst halfMoves = false := outside (by decide) met
  have bytes : inside inst byteMoves = false := outside (by decide) met
  simp [unguarded, met, halves, moves, bytes]

theorem unguarded_byteMoves (met : inside inst byteMoves = true) :
    unguarded C inst = !(C.FP_EN && C.XFVEC && decide (C.FLEN ≥ 16) && !C.RVD) := by
  have halves : inside inst halfCompares = false := outside (by decide) met
  have moves : inside inst halfMoves = false := outside (by decide) met
  have compares : inside inst byteCompares = false := outside (by decide) met
  simp [unguarded, met, halves, moves, compares]

/-- An arm under an outer guard is settled where its words are not unguarded. -/
theorem settled_under {guard present : Bool} {d : Dec} (unit : d.accAddr = .fpSs)
    (legal : d.illegalInst = false) (fails : unguarded C inst = !guard) :
    (if guard = true then offload present d else {}).Settled ↔ unguarded C inst = false := by
  rw [settled_guarded unit legal, fails]
  simp

theorem fpArms_settled {arm : DecArm} (member : arm ∈ fpArms C fmode inst)
    (met : inside inst arm.1 = true) : arm.2.Settled ↔ unguarded C inst = false := by
  have values : ∀ d ∈ fpValues, d.Settled := by decide
  have clear : ∀ ps ∈ (fpArms {} {} 0).map Prod.fst, ∀ p ∈ ps, ∀ q ∈ guardedPatterns,
      apart p q = true := by
    decide
  have same : (fpArms C fmode inst).map Prod.fst = (fpArms {} {} 0).map Prod.fst := rfl
  have pattern : arm.1 ∈ (fpArms {} {} 0).map Prod.fst := by
    rw [← same]
    exact List.mem_map_of_mem member
  exact settled_plain met (values _ (fpArms_values C fmode inst arm member)) (clear _ pattern)

theorem fpAccessArms_settled {arm : DecArm} (member : arm ∈ fpAccessArms C)
    (met : inside inst arm.1 = true) : arm.2.Settled ↔ unguarded C inst = false := by
  have values : ∀ d ∈ fpAccessValues, d.Settled := by decide
  have clear : ∀ ps ∈ (fpAccessArms {}).map Prod.fst, ∀ p ∈ ps, ∀ q ∈ guardedPatterns,
      apart p q = true := by
    decide
  have same : (fpAccessArms C).map Prod.fst = (fpAccessArms {}).map Prod.fst := rfl
  have pattern : arm.1 ∈ (fpAccessArms {}).map Prod.fst := by
    rw [← same]
    exact List.mem_map_of_mem member
  exact settled_plain met (values _ (fpAccessArms_values C arm member)) (clear _ pattern)

theorem settled_arm {ps : List (BitPat 32)} {present : Bool} {d : Dec} (unit : d.accAddr = .fpSs)
    (legal : d.illegalInst = false)
    (clear : ∀ p ∈ ps, ∀ q ∈ guardedPatterns, apart p q = true) (met : inside inst ps = true) :
    (offload present d).Settled ↔ unguarded C inst = false :=
  settled_plain met (settled_offload unit legal) clear

theorem fpToIntArms_settled : ∀ arm ∈ fpToIntArms C fmode, inside inst arm.1 = true →
    (arm.2.Settled ↔ unguarded C inst = false) := by
  simp only [fpToIntArms, List.forall_mem_cons]
  refine ⟨settled_arm rfl rfl (by decide), settled_arm rfl rfl (by decide),
    settled_arm rfl rfl (by decide), settled_arm rfl rfl (by decide), settled_arm rfl rfl (by decide),
    fun met => ?_, fun met => ?_, settled_arm rfl rfl (by decide), fun met => ?_, fun met => ?_,
    by simp⟩
  · exact settled_under rfl rfl (unguarded_halfCompares met)
  · exact settled_under rfl rfl (unguarded_halfMoves (inside_of_subset (by decide) met))
  · exact settled_under rfl rfl (unguarded_byteCompares met)
  · exact settled_under rfl rfl (unguarded_byteMoves (inside_of_subset (by decide) met))

theorem intToFpArms_settled : ∀ arm ∈ intToFpArms C fmode, inside inst arm.1 = true →
    (arm.2.Settled ↔ unguarded C inst = false) := by
  simp only [intToFpArms, List.forall_mem_cons]
  refine ⟨settled_arm rfl rfl (by decide), settled_arm rfl rfl (by decide),
    settled_arm rfl rfl (by decide), settled_arm rfl rfl (by decide), fun met => ?_,
    settled_arm rfl rfl (by decide), fun met => ?_, settled_arm rfl rfl (by decide), by simp⟩
  · exact settled_under rfl rfl (unguarded_halfMoves (inside_of_subset (by decide) met))
  · exact settled_under rfl rfl (unguarded_byteMoves (inside_of_subset (by decide) met))

theorem floatArms_settled {arm : DecArm} (member : arm ∈ floatArms C fmode inst)
    (met : inside inst arm.1 = true) : arm.2.Settled ↔ unguarded C inst = false := by
  simp only [floatArms, List.mem_append] at member
  rcases member with ((arith | toInt) | fromInt) | access
  · exact fpArms_settled arith met
  · exact fpToIntArms_settled arm toInt met
  · exact intToFpArms_settled arm fromInt met
  · exact fpAccessArms_settled access met

end Settled

/-! ## Divisions and roots -/

section Roots

variable {C : Cfg} {privLvl : PrivLvl} {debug : Bool} {fmode : FmtMode} {inst : BitVec 32}

@[simp] theorem toFpSs_offload (present : Bool) (d : Dec) :
    (offload present d).toFpSs = (present && d.accAddr == .fpSs) := by
  cases present <;> rfl

theorem isFloat_of_inside {ps : List (BitPat 32)} (sub : ∀ p ∈ ps, p ∈ floatPatterns.flatten)
    (met : inside inst ps = true) : isFloat inst = true :=
  inside_of_subset sub met

/-- A word of an arm that offloads is offloaded where the arm says so. -/
theorem root_arm {ps group : List (BitPat 32)} {present : Bool} (k : Nat)
    (arm : (floatArms C fmode inst)[k]? = some (ps, offload present {}))
    (sub : ∀ p ∈ group, p ∈ ps)
    (before : ∀ ps ∈ floatPatterns.take k, ∀ p ∈ group, ∀ q ∈ ps, apart p q = true)
    (met : inside inst group = true) : (decode C privLvl debug fmode inst).toFpSs = present := by
  have inArm := inside_of_subset sub met
  have pattern : ps ∈ floatPatterns := by
    rw [← floatArms_patterns C fmode inst]
    exact List.mem_map_of_mem (f := Prod.fst) (List.mem_of_getElem? arm)
  have float : isFloat inst = true := by
    refine isFloat_of_inside (fun p among => ?_) inArm
    exact List.mem_flatten.mpr ⟨ps, pattern, among⟩
  rw [decode_float float, firstMatch_at arm illegal _ inArm]
  · simp
  · intro ps earlier
    rw [floatArms_patterns] at earlier
    exact outside (before ps earlier) met

theorem divSqrtOk_group {group : List (BitPat 32)} (met : inside inst group = true) :
    divSqrtOk C inst group = C.XDivSqrt := by
  simp [divSqrtOk, met]

/-- The scalar half-precision words are divided and rooted in the alternate format alone. -/
theorem root_scalarH (met : inside inst scalarRootsH = true) (noUnit : C.XDivSqrt = false) :
    (decode C privLvl debug fmode inst).toFpSs = alternateRoot C fmode inst := by
  have vector : divSqrtOk C inst vectorRootsH = true := by
    have other : inside inst vectorRootsH = false := outside (by decide) met
    simp [divSqrtOk, other]
  have excluded := divSqrtOk_group (C := C) met
  rw [root_arm 5 rfl (by decide) (by decide) met]
  change (C.FP_EN && C.XF16 && !fmode.dst && divSqrtOk C inst scalarRootsH ||
    C.FP_EN && C.XF16ALT && fmode.dst && divSqrtOk C inst vectorRootsH) = _
  simp [excluded, vector, alternateRoot, met, noUnit]

/-- **Without the unit, a division or root is offloaded only in the alternate scalar format.** -/
theorem root_toFpSs (root : inside inst rootPatterns = true) (noUnit : C.XDivSqrt = false) :
    (decode C privLvl debug fmode inst).toFpSs = alternateRoot C fmode inst := by
  have other {group : List (BitPat 32)} (met : inside inst group = true)
      (clear : ∀ p ∈ group, ∀ q ∈ scalarRootsH, apart p q = true) :
      alternateRoot C fmode inst = false := by
    simp [alternateRoot, outside clear met]
  have groups := root
  simp only [rootPatterns, inside, List.any_append, Bool.or_eq_true] at groups
  rcases groups with ((((scalarS | scalarD) | scalarH) | vectorS) | vectorH) | vectorB
  · rw [root_arm 0 rfl (by decide) (by decide) scalarS, other scalarS (by decide)]
    exact (congrArg (_ && ·) ((divSqrtOk_group scalarS).trans noUnit)).trans (Bool.and_false _)
  · rw [root_arm 3 rfl (by decide) (by decide) scalarD, other scalarD (by decide)]
    exact (congrArg (_ && ·) ((divSqrtOk_group scalarD).trans noUnit)).trans (Bool.and_false _)
  · exact root_scalarH scalarH noUnit
  · rw [root_arm 1 rfl (by decide) (by decide) vectorS, other vectorS (by decide)]
    exact (congrArg (_ && ·) ((divSqrtOk_group vectorS).trans noUnit)).trans (Bool.and_false _)
  · rw [root_arm 11 rfl (by decide) (by decide) vectorH, other vectorH (by decide)]
    exact (congrArg (_ && ·) ((divSqrtOk_group vectorH).trans noUnit)).trans (Bool.and_false _)
  · rw [root_arm 27 rfl (by decide) (by decide) vectorB, other vectorB (by decide)]
    exact (congrArg (_ && ·) ((divSqrtOk_group vectorB).trans noUnit)).trans (Bool.and_false _)

/-- The alternate scalar format is of a division or root, without the unit. -/
theorem alternateRoot_root (alternate : alternateRoot C fmode inst = true) :
    inside inst rootPatterns = true ∧ C.XDivSqrt = false := by
  simp only [alternateRoot, Bool.and_eq_true, Bool.not_eq_true'] at alternate
  exact ⟨inside_of_subset (by decide) alternate.1, alternate.2.2⟩

end Roots

/-! ## Every floating-point word -/

/-- **A floating-point word is offloaded or illegal, writes no integer register and divides only
with the unit, exactly where it is neither unguarded nor an alternate scalar root.** -/
theorem decisive_iff (C : Cfg) (privLvl : PrivLvl) (debug : Bool) (fmode : FmtMode)
    (inst : BitVec 32) (float : isFloat inst = true) :
    (decode C privLvl debug fmode inst).Decisive C inst ↔
      unguarded C inst = false ∧ alternateRoot C fmode inst = false := by
  have taken : ∃ arm ∈ floatArms C fmode inst, inside inst arm.1 = true ∧
      decode C privLvl debug fmode inst = arm.2 := decode_float_mem float
  obtain ⟨arm, member, met, taken⟩ := taken
  have settled : (decode C privLvl debug fmode inst).Settled ↔ unguarded C inst = false := by
    rw [taken]
    exact floatArms_settled member met
  rw [Decisive, settled]
  refine and_congr_right fun _ => ⟨fun roots => ?_, fun none noUnit root => ?_⟩
  · cases alternate : alternateRoot C fmode inst with
    | false => rfl
    | true =>
      obtain ⟨root, noUnit⟩ := alternateRoot_root alternate
      rw [← roots noUnit root, root_toFpSs root noUnit, alternate]
  · rw [root_toFpSs root noUnit, none]

/-- A double-precision addition of a core that has the format. -/
theorem decisive_fadd : isFloat 0x02000053 = true ∧
    (decode { RVD := true } 0 false {} 0x02000053).Decisive { RVD := true } 0x02000053 :=
  ⟨by decide, (decisive_iff { RVD := true } 0 false {} 0x02000053 (by decide)).mpr
    ⟨by decide, by decide⟩⟩

/-- **Unsupported words do not always trap.**  Without vectors, `vfeq.h x10, f0, f0` decodes to
the defaults, which write `x10`; without the unit, `fdiv.h` is offloaded in the alternate
format. -/
theorem unsupported_not_trapped :
    (isFloat 0xa0002533 = true ∧ decode {} 0 false {} 0xa0002533 = {} ∧
      (decode {} 0 false {} 0xa0002533).writesInteger = true) ∧
    (isFloat 0x1c000053 = true ∧ inside 0x1c000053 rootPatterns = true ∧
      (decode { XF16ALT := true } 0 false { dst := true } 0x1c000053).toFpSs = true) ∧
    ¬∀ (C : Cfg) (privLvl : PrivLvl) (debug : Bool) (fmode : FmtMode) (inst : BitVec 32),
      isFloat inst = true → (decode C privLvl debug fmode inst).Decisive C inst := by
  have defaults : decode {} 0 false {} 0xa0002533 = {} := by decide
  refine ⟨⟨by decide, defaults, by rw [defaults]; rfl⟩,
    ⟨by decide, by decide, by decide⟩, fun all => ?_⟩
  have settled := (all {} 0 false {} 0xa0002533 (by decide)).1
  rw [defaults] at settled
  exact absurd settled (by decide)

namespace State

variable {C : Cfg} {P : LsuParts C} {s : State P} {i : Input C}

end State

end SnitchCluster.Core
