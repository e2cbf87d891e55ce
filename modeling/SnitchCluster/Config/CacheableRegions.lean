/-
# Config.CacheableRegions -- regions as bases and masks

The generator turns a cacheable region into a base and a mask over integers of any width, and
refuses it unless the length is a power of two that fits the address space and the base a multiple
of it in the space (`add_region_length_accepts`).  The core compares vectors of 48 bits under the
mask; on an address of the space that is membership in the region (`range_check_iff`), so the rules
describe what was configured (`cacheable_regions_exact`).
-/
import Mathlib.Data.Int.Bitwise
import Mathlib.Tactic.Positivity
import SnitchCluster.Theory.Loops

namespace SnitchCluster.Config

open Theory

/-! ## The generator -/

inductive PMA
  | ATOMIC
  | CACHED
  | EXECUTE
  | NON_IDEMPOTENT
  deriving DecidableEq

structure PMACfg where
  regions : List (PMA × Int × Int) := []

namespace PMACfg

def add_region (cfg : PMACfg) (pma : PMA) (base mask : Int) : PMACfg :=
  { cfg with regions := cfg.regions ++ [(pma, base, mask)] }

def add_region_length (cfg : PMACfg) (pma : PMA) (base length : Int) (addr_width : Nat) :
    Except String PMACfg :=
  let is_length_power_of_two := length ≠ 0 ∧ length.land (length - 1) = 0
  let mask_addr_space := ((1 : Int) <<< addr_width) - 1
  let mask := mask_addr_space.land (length - 1).lnot
  let is_mask_aligned := mask.lnot.land base = 0
  if ¬is_length_power_of_two ∨ mask = 0 ∨ ¬is_mask_aligned then
    .error "Cacheable regions must have a power-of-two length aligned to their base."
  else
    .ok (cfg.add_region pma base mask)

end PMACfg

/-- An entry of `external_addr_regions`. -/
structure AddrRegion where
  address : Int
  length : Int
  cacheable : Bool

/-- One iteration of the first loop of `gen_pma_cfg`. -/
def addRegion (addr_width : Nat) (pma_cfg : PMACfg) (region : AddrRegion) : Except String PMACfg :=
  if region.cacheable then
    pma_cfg.add_region_length .CACHED region.address region.length addr_width
  else
    .ok pma_cfg

/-- `gen_pma_cfg`: the list `pmas.cached`. -/
def gen_pma_cfg (external_addr_regions : List AddrRegion) (addr_width : Nat) :
    Except String (List (Int × Int)) := do
  let pma_cfg ← external_addr_regions.foldlM (addRegion addr_width) {}
  return pma_cfg.regions.filterMap fun pma => if pma.1 = .CACHED then some pma.2 else none

/-! ## The core -/

def NrMaxRules : Nat := 4

structure Rule where
  base : BitVec 48
  mask : BitVec 48

/-- The cached regions of `snitch_pma_t`. -/
structure SnitchPma where
  NrCachedRegionRules : Nat
  CachedRegion : Nat → Rule

def range_check (base mask address : BitVec 48) : Bool := address &&& mask == base &&& mask

def is_inside_cacheable_regions (cfg : SnitchPma) (address : BitVec 48) : Bool :=
  let pass := Loops.loop cfg.NrCachedRegionRules (fun k pass => Function.update pass k
    (range_check (cfg.CachedRegion k).base (cfg.CachedRegion k).mask address)) fun _ => false
  (List.range NrMaxRules).any pass

/-- The generated pairs as rules. -/
def rules (cached : List (Int × Int)) : SnitchPma where
  NrCachedRegionRules := cached.length
  CachedRegion k :=
    let rule := cached.getD k (0, 0)
    ⟨BitVec.ofInt 48 rule.1, BitVec.ofInt 48 rule.2⟩

/-! ## What is accepted -/

section Accepted

variable {addr_width k : Nat}

/-- The test of the generator. -/
theorem power_of_two_iff (length : Int) : length ≠ 0 ∧ length.land (length - 1) = 0 ↔
    ∃ k : Nat, length = 2 ^ k := by
  constructor
  · rintro ⟨some, disjoint⟩
    cases length with
    | negSucc n =>
      -- both have all bits above some place
      have below : Int.negSucc n - 1 = Int.negSucc (n + 1) := by omega
      rw [below] at disjoint
      cases disjoint
    | ofNat n =>
      have some : n ≠ 0 := fun none => some (congrArg Int.ofNat none)
      have below : Int.ofNat n - 1 = Int.ofNat (n - 1) :=
        (Int.ofNat_sub (Nat.pos_of_ne_zero some)).symm
      rw [below] at disjoint
      obtain ⟨k, rfl⟩ := Nat.ne_zero_and_sub_one_eq_zero_iff_isPowerOfTwo.mp
        ⟨some, Int.ofNat.inj disjoint⟩
      exact ⟨k, by simp⟩
  · rintro ⟨k, rfl⟩
    obtain ⟨some, disjoint⟩ :=
      Nat.ne_zero_and_sub_one_eq_zero_iff_isPowerOfTwo.mpr ⟨k, rfl⟩
    have below : (2 ^ k : Int) - 1 = ((2 ^ k - 1 : Nat) : Int) := by
      have := Nat.two_pow_pos k
      push_cast [Nat.cast_sub this]
      rfl
    refine ⟨by positivity, ?_⟩
    rw [below]
    exact_mod_cast congrArg Int.ofNat disjoint

/-- The mask of a region of `2 ^ k` bytes. -/
def regionMask (addr_width k : Nat) : Nat := Nat.ldiff (2 ^ addr_width - 1) (2 ^ k - 1)

@[simp] theorem testBit_regionMask (i : Nat) :
    (regionMask addr_width k).testBit i = (decide (i < addr_width) && !decide (i < k)) := by
  rw [regionMask, Nat.testBit_ldiff, Nat.testBit_two_pow_sub_one, Nat.testBit_two_pow_sub_one]

theorem mask_eq (addr_width k : Nat) :
    (((1 : Int) <<< addr_width) - 1).land ((2 ^ k : Int) - 1).lnot = regionMask addr_width k := by
  have space : ((1 : Int) <<< addr_width) - 1 = ((2 ^ addr_width - 1 : Nat) : Int) := by
    rw [Int.shiftLeft_eq, Nat.cast_sub (Nat.two_pow_pos _)]
    simp
  have length : (2 ^ k : Int) - 1 = ((2 ^ k - 1 : Nat) : Int) := by
    rw [Nat.cast_sub (Nat.two_pow_pos _)]
    simp
  rw [space, length]
  rfl

theorem regionMask_eq_zero : regionMask addr_width k = 0 ↔ addr_width ≤ k := by
  constructor
  · intro none
    by_contra small
    have bit := congrArg (fun m => m.testBit k) none
    simp [Nat.lt_of_not_le small] at bit
  · intro large
    apply Nat.eq_of_testBit_eq
    intro i
    by_cases inside : i < addr_width
    · simp [Nat.lt_of_lt_of_le inside large]
    · simp [inside]

/-- **Aligned to the mask**: in the space, a multiple of the length. -/
theorem aligned_iff (base : Int) :
    ((regionMask addr_width k : Int).lnot.land base = 0) ↔
      ∃ b : Nat, base = b ∧ b < 2 ^ addr_width ∧ 2 ^ k ∣ b := by
  cases base with
  | negSucc n =>
    constructor
    · intro none
      cases none
    · rintro ⟨b, negative, -⟩
      cases negative
  | ofNat b =>
    have bits : ((regionMask addr_width k : Int).lnot.land (Int.ofNat b) = 0) ↔
        ∀ i, b.testBit i = true → i < addr_width ∧ k ≤ i := by
      have difference : (regionMask addr_width k : Int).lnot.land (Int.ofNat b) =
        Int.ofNat (Nat.ldiff b (regionMask addr_width k)) := rfl
      rw [difference]
      constructor
      · intro none i bit
        have here := congrArg (fun m => m.testBit i) (Int.ofNat.inj none)
        simpa [Nat.testBit_ldiff, bit] using here
      · intro inside
        refine congrArg Int.ofNat (Nat.eq_of_testBit_eq fun i => ?_)
        cases bit : b.testBit i with
        | false => simp [Nat.testBit_ldiff, bit]
        | true =>
          obtain ⟨below, above⟩ := inside i bit
          simp [Nat.testBit_ldiff, below, Nat.not_lt.mpr above]
    rw [bits]
    constructor
    · intro inside
      refine ⟨b, rfl, ?_, ?_⟩
      · refine Nat.lt_pow_two_of_testBit b fun i above => ?_
        by_contra bit
        have := inside i (by simpa using bit)
        omega
      · refine Nat.dvd_of_mod_eq_zero (Nat.eq_of_testBit_eq fun i => ?_)
        rw [Nat.testBit_mod_two_pow, Nat.zero_testBit]
        cases bit : b.testBit i with
        | false => simp
        | true => simp [(inside i bit).2]
    · rintro ⟨b', same, space, c, rfl⟩ i bit
      obtain rfl : b = 2 ^ k * c := Int.ofNat.inj same
      constructor
      · by_contra outside
        have far := Nat.pow_le_pow_right (n := 2) (by decide) (Nat.le_of_not_lt outside)
        rw [Nat.testBit_lt_two_pow (Nat.lt_of_lt_of_le space far)] at bit
        cases bit
      · rw [Nat.testBit_two_pow_mul] at bit
        simp only [Bool.and_eq_true, decide_eq_true_eq] at bit
        exact bit.1

/-- **What the generator accepts**, and the rule it adds. -/
theorem add_region_length_eq (cfg cfg' : PMACfg) (pma : PMA) (base length : Int)
    (addr_width : Nat) : cfg.add_region_length pma base length addr_width = .ok cfg' ↔
      ∃ k < addr_width, ∃ b : Nat, length = 2 ^ k ∧ base = b ∧ b < 2 ^ addr_width ∧ 2 ^ k ∣ b ∧
        cfg' = cfg.add_region pma b (regionMask addr_width k) := by
  unfold PMACfg.add_region_length
  simp only
  split
  · next refused =>
      refine ⟨nofun, ?_⟩
      rintro ⟨k, fits, b, rfl, rfl, space, whole, -⟩
      rw [mask_eq, aligned_iff] at refused
      rcases refused with odd | zero | off
      · exact absurd ((power_of_two_iff _).mpr ⟨k, rfl⟩) odd
      · exact absurd (regionMask_eq_zero.mp (Int.ofNat.inj zero)) (Nat.not_le_of_lt fits)
      · exact absurd ⟨b, rfl, space, whole⟩ off
  · next accepted =>
      simp only [not_or, not_not] at accepted
      obtain ⟨power, some, aligned⟩ := accepted
      obtain ⟨k, rfl⟩ := (power_of_two_iff length).mp power
      rw [mask_eq] at some aligned ⊢
      have fits : k < addr_width := by
        by_contra large
        exact some (congrArg Int.ofNat (regionMask_eq_zero.mpr (Nat.le_of_not_lt large)))
      obtain ⟨b, rfl, space, whole⟩ := (aligned_iff base).mp aligned
      constructor
      · rintro ⟨⟩
        exact ⟨k, fits, b, rfl, rfl, space, whole, rfl⟩
      · rintro ⟨k', -, b', same, same', -, -, rfl⟩
        have same : 2 ^ k = 2 ^ k' := by exact_mod_cast same
        obtain rfl : k = k' := Nat.pow_right_injective le_rfl same
        obtain rfl : b = b' := Int.ofNat.inj same'
        rfl

end Accepted

/-! ## What is matched -/

section Matched

variable {addr_width k : Nat}

/-- **Comparing under the mask is membership in the region.** -/
theorem range_check_iff {b : Nat} {address : BitVec 48} (wide : addr_width ≤ 48)
    (space : b < 2 ^ addr_width) (whole : 2 ^ k ∣ b) (inside : address.toNat < 2 ^ addr_width) :
    range_check (BitVec.ofInt 48 b) (BitVec.ofInt 48 (regionMask addr_width k)) address = true ↔
      b ≤ address.toNat ∧ address.toNat < b + 2 ^ k := by
  have far : 2 ^ addr_width ≤ 2 ^ 48 := Nat.pow_le_pow_right (by decide) wide
  have small : regionMask addr_width k < 2 ^ addr_width :=
    Nat.lt_pow_two_of_testBit _ fun i above => by simp [Nat.not_lt.mpr above]
  have base : (BitVec.ofInt 48 b).toNat = b := by
    rw [BitVec.ofInt_natCast, BitVec.toNat_ofNat, Nat.mod_eq_of_lt (Nat.lt_of_lt_of_le space far)]
  have mask : (BitVec.ofInt 48 (regionMask addr_width k)).toNat = regionMask addr_width k := by
    rw [BitVec.ofInt_natCast, BitVec.toNat_ofNat, Nat.mod_eq_of_lt (Nat.lt_of_lt_of_le small far)]
  have above : range_check (BitVec.ofInt 48 b) (BitVec.ofInt 48 (regionMask addr_width k)) address =
      true ↔ address.toNat / 2 ^ k = b / 2 ^ k := by
    rw [range_check, beq_iff_eq, ← BitVec.toNat_inj, BitVec.toNat_and, BitVec.toNat_and, base, mask]
    constructor
    · intro same
      refine Nat.eq_of_testBit_eq fun i => ?_
      rw [Nat.testBit_div_two_pow, Nat.testBit_div_two_pow]
      have bits := congrArg (fun m => m.testBit (i + k)) same
      by_cases low : i + k < addr_width
      · simpa [low] using bits
      · have high := Nat.pow_le_pow_right (n := 2) (by decide) (Nat.le_of_not_lt low)
        rw [Nat.testBit_lt_two_pow (Nat.lt_of_lt_of_le inside high),
          Nat.testBit_lt_two_pow (Nat.lt_of_lt_of_le space high)]
    · intro same
      refine Nat.eq_of_testBit_eq fun i => ?_
      rw [Nat.testBit_and, Nat.testBit_and, testBit_regionMask]
      by_cases low : i < k
      · simp [low]
      · have bits := congrArg (fun m => m.testBit (i - k)) same
        simp only [Nat.testBit_div_two_pow, Nat.sub_add_cancel (Nat.le_of_not_lt low)] at bits
        rw [bits]
  obtain ⟨c, rfl⟩ := whole
  rw [above, Nat.mul_div_cancel_left c (Nat.two_pow_pos k), Nat.div_eq_iff (Nat.two_pow_pos k),
    Nat.mul_comm c]
  have := Nat.two_pow_pos k
  omega

/-- **The loop looks at every rule.** -/
theorem is_inside_iff {cfg : SnitchPma} (few : cfg.NrCachedRegionRules ≤ NrMaxRules)
    (address : BitVec 48) : is_inside_cacheable_regions cfg address = true ↔
      ∃ k < cfg.NrCachedRegionRules,
        range_check (cfg.CachedRegion k).base (cfg.CachedRegion k).mask address = true := by
  have pass : ∀ n i, Loops.loop n (fun k pass => Function.update pass k
      (range_check (cfg.CachedRegion k).base (cfg.CachedRegion k).mask address))
        (fun _ => false) i =
      (decide (i < n) &&
        range_check (cfg.CachedRegion i).base (cfg.CachedRegion i).mask address) := by
    intro n i
    induction n with
    | zero => rfl
    | succ n ih =>
      rw [Loops.loop_succ]
      by_cases here : i = n
      · subst here
        simp
      · rw [Function.update_of_ne here, ih]
        have past : (i < n) = (i < n + 1) := by
          rw [Nat.lt_succ_iff_lt_or_eq, or_iff_left here]
        simp only [past]
  simp only [is_inside_cacheable_regions, List.any_eq_true, List.mem_range, pass,
    Bool.and_eq_true, decide_eq_true_eq]
  exact ⟨fun ⟨k, _, both⟩ => ⟨k, both⟩, fun ⟨k, inside, hit⟩ =>
    ⟨k, Nat.lt_of_lt_of_le inside few, inside, hit⟩⟩

/-- A region of `2 ^ p.2` bytes from `p.1` on that fits the space. -/
def Describes (addr_width : Nat) (region : AddrRegion) (p : Nat × Nat) : Prop :=
  region.address = (p.1 : Int) ∧ region.length = 2 ^ p.2 ∧ p.1 < 2 ^ addr_width ∧ 2 ^ p.2 ∣ p.1

/-- What the loop over the regions collects. -/
theorem foldlM_regions (regions : List AddrRegion) (cfg cfg' : PMACfg)
    (accepted : regions.foldlM (addRegion addr_width) cfg = .ok cfg') :
    ∃ added : List (Nat × Nat),
      cfg'.regions = cfg.regions ++ added.map (fun p =>
        (PMA.CACHED, (p.1 : Int), (regionMask addr_width p.2 : Int))) ∧
      List.Forall₂ (Describes addr_width) (regions.filter (·.cacheable)) added := by
  induction regions generalizing cfg with
  | nil =>
    obtain rfl : cfg = cfg' := Except.ok.inj accepted
    exact ⟨[], by simp, .nil⟩
  | cons region regions ih =>
    rw [List.foldlM_cons] at accepted
    cases first : addRegion addr_width cfg region with
    | error e =>
      rw [first] at accepted
      cases accepted
    | ok cfg₁ =>
      rw [first] at accepted
      obtain ⟨added, collected, described⟩ := ih cfg₁ accepted
      cases cacheable : region.cacheable with
      | false =>
        rw [addRegion, cacheable] at first
        obtain rfl : cfg = cfg₁ := Except.ok.inj first
        exact ⟨added, collected, by rwa [List.filter_cons_of_neg (by simp [cacheable])]⟩
      | true =>
        rw [addRegion, if_pos cacheable] at first
        obtain ⟨k, -, b, length, address, space, whole, rfl⟩ :=
          (add_region_length_eq _ _ _ _ _ _).mp first
        refine ⟨(b, k) :: added, ?_, ?_⟩
        · rw [collected]
          simp [PMACfg.add_region]
        · rw [List.filter_cons_of_pos cacheable]
          exact .cons ⟨address, length, space, whole⟩ described

/-- **Cacheable regions are described exactly**: a region is accepted if its length is a power of
two smaller than the space and its base a multiple of it inside, and the generated rules match the
addresses of the regions and no others. -/
theorem cacheable_regions_exact (addr_width : Nat) (wide : addr_width ≤ 48) :
    (∀ (cfg : PMACfg) (pma : PMA) (base length : Int),
      (∃ cfg', cfg.add_region_length pma base length addr_width = .ok cfg') ↔
        (∃ k : Nat, length = 2 ^ k) ∧ length < 2 ^ addr_width ∧ length ∣ base ∧ 0 ≤ base ∧
          base < 2 ^ addr_width) ∧
    ∀ (regions : List AddrRegion) (cached : List (Int × Int)),
      (regions.filter (·.cacheable)).length ≤ NrMaxRules →
      gen_pma_cfg regions addr_width = .ok cached →
      ∀ address : BitVec 48, address.toNat < 2 ^ addr_width →
        (is_inside_cacheable_regions (rules cached) address = true ↔
          ∃ r ∈ regions, r.cacheable = true ∧ r.address ≤ address.toNat ∧
            address.toNat < r.address + r.length) := by
  constructor
  · intro cfg pma base length
    simp only [add_region_length_eq]
    constructor
    · rintro ⟨_, k, fits, b, rfl, rfl, space, whole, -⟩
      refine ⟨⟨k, rfl⟩, ?_, ?_, Int.natCast_nonneg b, by exact_mod_cast space⟩
      · have small : 2 ^ k < 2 ^ addr_width := Nat.pow_lt_pow_right Nat.one_lt_two fits
        exact_mod_cast small
      · exact_mod_cast whole
    · rintro ⟨⟨k, rfl⟩, fits, whole, positive, space⟩
      obtain ⟨b, rfl⟩ := Int.eq_ofNat_of_zero_le positive
      refine ⟨_, k, ?_, b, rfl, rfl, by exact_mod_cast space, by exact_mod_cast whole, rfl⟩
      exact (Nat.pow_lt_pow_iff_right Nat.one_lt_two).mp (by exact_mod_cast fits)
  · intro regions cached few accepted address inside
    cases collected : regions.foldlM (addRegion addr_width) {} with
    | error e =>
      rw [gen_pma_cfg, collected] at accepted
      cases accepted
    | ok cfg =>
      rw [gen_pma_cfg, collected] at accepted
      obtain ⟨added, regions_eq, described⟩ := foldlM_regions regions {} cfg collected
      have cached_eq : cached = added.map fun p =>
          ((p.1 : Int), (regionMask addr_width p.2 : Int)) := by
        have result : cfg.regions.filterMap
          (fun pma => if pma.1 = .CACHED then some pma.2 else none) = cached :=
          Except.ok.inj accepted
        rw [← result, regions_eq]
        simp [List.filterMap_map]
      obtain ⟨same, described⟩ := List.forall₂_iff_get.mp described
      have length : (rules cached).NrCachedRegionRules = added.length := by
        simp [rules, cached_eq]
      have rule : ∀ k (small : k < added.length),
          range_check ((rules cached).CachedRegion k).base ((rules cached).CachedRegion k).mask
              address = true ↔
            added[k].1 ≤ address.toNat ∧ address.toNat < added[k].1 + 2 ^ added[k].2 := by
        intro k small
        obtain ⟨-, -, space, whole⟩ := described k (same ▸ small) small
        refine Iff.trans ?_ (range_check_iff wide space whole inside)
        simp [rules, cached_eq, small]
      rw [is_inside_iff (length ▸ same ▸ few), length]
      constructor
      · rintro ⟨k, small, hit⟩
        obtain ⟨address_eq, length_eq, -, -⟩ := described k (same ▸ small) small
        have member := List.mem_filter.mp (List.get_mem _ ⟨k, same ▸ small⟩)
        obtain ⟨low, high⟩ := (rule k small).mp hit
        refine ⟨_, member.1, member.2, ?_, ?_⟩
        · rw [address_eq]
          exact_mod_cast low
        · rw [address_eq, length_eq]
          exact_mod_cast high
      · rintro ⟨r, member, cacheable, low, high⟩
        obtain ⟨⟨k, small⟩, rfl⟩ := List.get_of_mem (List.mem_filter.mpr ⟨member, cacheable⟩)
        obtain ⟨address_eq, length_eq, -, -⟩ := described k small (same ▸ small)
        rw [address_eq] at low high
        rw [length_eq] at high
        refine ⟨k, same ▸ small, (rule k (same ▸ small)).mpr ⟨?_, ?_⟩⟩
        · exact_mod_cast low
        · exact_mod_cast high

/-- The upper half of a space of 32 bits. -/
theorem cacheable_regions_exact_half :
    is_inside_cacheable_regions (rules [(0x80000000, regionMask 32 31)]) 0x80001000 = true ↔
      ∃ r ∈ [(⟨0x80000000, 0x80000000, true⟩ : AddrRegion)], r.cacheable = true ∧
        r.address ≤ (0x80001000 : BitVec 48).toNat ∧
          (0x80001000 : BitVec 48).toNat < r.address + r.length := by
  have accepted : ({} : PMACfg).add_region_length .CACHED 0x80000000 0x80000000 32 =
      .ok (({} : PMACfg).add_region .CACHED 0x80000000 (regionMask 32 31)) :=
    (add_region_length_eq _ _ _ _ _ _).mpr
      ⟨31, by decide, 0x80000000, rfl, rfl, by decide, by decide, rfl⟩
  refine (cacheable_regions_exact 32 (by decide)).2 _ _ (by decide) ?_ 0x80001000 (by decide)
  simp [gen_pma_cfg, addRegion, accepted, PMACfg.add_region]

end Matched

end SnitchCluster.Config
