/-
# Runtime.Multicast -- waking the clusters of a communicator with one store

With multicast, `snrt_wake_clusters` stores once, to the interrupt register of another cluster
under a mask built from the size of the communicator.  The store reaches every cluster whose
register has the same address outside the mask.  A size that is a power of two gives the mask of
the first clusters; the base is the first cluster, or the second where the first calls.  So the
store reaches who the sequential variant reaches for such sizes from two on, and for hardly
any other (`reached_iff`).
-/
import Mathlib.Tactic.Ring
import SnitchCluster.Theory.Masks

namespace SnitchCluster.Runtime.Multicast

open Theory

/-- The clusters in the address space: `num` of them, `2 ^ w` bytes apart, in a block of
`2 ^ k` places that is aligned to its size. -/
structure ClusterMap where
  num : BitVec 32
  base : BitVec 32
  w : Nat
  k : Nat
  /-- The place of `cl_clint_set` in a cluster. -/
  clClintSet : Nat
  places : num.toNat ≤ 2 ^ k
  width : w + k ≤ 32
  aligned : 2 ^ (w + k) ∣ base.toNat
  inside : clClintSet < 2 ^ w

namespace ClusterMap

variable (map : ClusterMap)

/-- `SNRT_CLUSTER_OFFSET`. -/
def offset : BitVec 32 := BitVec.ofNat 32 (2 ^ map.w)

/-- `&snrt_cluster(i)->peripheral_reg.cl_clint_set`. -/
def register (i : BitVec 32) : BitVec 32 :=
  map.base + i * map.offset + BitVec.ofNat 32 map.clClintSet

/-- The cluster that the multicast store addresses. -/
def cluster (idx : BitVec 32) : BitVec 32 := if idx = 0 then 1 else 0

/-- `mcast_mask`. -/
def mcastMask (size : BitVec 32) : BitVec 32 := (size - 1) * map.offset

/-- The other clusters whose register agrees with the address of the store outside the mask. -/
def reached (size idx : BitVec 32) : Set (BitVec 32) :=
  {i | i < map.num ∧ i ≠ idx ∧
    map.register i &&& ~~~map.mcastMask size =
      map.register (cluster idx) &&& ~~~map.mcastMask size}

end ClusterMap

/-- The clusters that the sequential variant wakes, in turn. -/
def wakeSequential (size idx : BitVec 32) : List (BitVec 32) :=
  ((List.range size.toNat).map (BitVec.ofNat 32)).filter (idx ≠ ·)

theorem mem_wakeSequential {size idx i : BitVec 32} :
    i ∈ wakeSequential size idx ↔ i < size ∧ i ≠ idx := by
  simp only [wakeSequential, List.mem_filter, List.mem_map, List.mem_range, decide_eq_true_eq,
    ne_comm]
  refine and_congr_left fun _ => ⟨?_, fun below => ⟨i.toNat, below, by simp⟩⟩
  rintro ⟨n, below, rfl⟩
  have fits : n < 2 ^ 32 := Nat.lt_trans below size.isLt
  rw [BitVec.lt_def, BitVec.toNat_ofNat, Nat.mod_eq_of_lt fits]
  exact below

/-! ## Addresses -/

section Addresses

variable {map : ClusterMap}

/-- A multiple of the offset, for a place of the block. -/
theorem toNat_mul_offset {i : BitVec 32} (place : i.toNat < 2 ^ map.k) :
    (i * map.offset).toNat = 2 ^ map.w * i.toNat := by
  have room : 2 ^ map.w * i.toNat < 2 ^ 32 := by
    calc 2 ^ map.w * i.toNat < 2 ^ map.w * 2 ^ map.k :=
          (Nat.mul_lt_mul_left (Nat.two_pow_pos _)).mpr place
      _ = 2 ^ (map.w + map.k) := (Nat.pow_add ..).symm
      _ ≤ 2 ^ 32 := Nat.pow_le_pow_right (by omega) map.width
  rw [ClusterMap.offset, BitVec.toNat_mul, BitVec.toNat_ofNat, Nat.mul_mod_mod,
    Nat.mul_comm i.toNat, Nat.mod_eq_of_lt room]

/-- The number of the block in the address space. -/
def ClusterMap.block (map : ClusterMap) : Nat := map.base.toNat / 2 ^ (map.w + map.k)

/-- The register of a cluster, by its fields. -/
theorem toNat_register {i : BitVec 32} (place : i.toNat < 2 ^ map.k) :
    (map.register i).toNat =
      2 ^ map.w * (2 ^ map.k * map.block + i.toNat) + map.clClintSet := by
  have block : map.base.toNat = 2 ^ (map.w + map.k) * map.block :=
    (Nat.mul_div_cancel' map.aligned).symm
  have whole : 2 ^ 32 = 2 ^ (map.w + map.k) * 2 ^ (32 - (map.w + map.k)) := by
    rw [← Nat.pow_add, Nat.add_sub_cancel' map.width]
  have last : map.block + 1 ≤ 2 ^ (32 - (map.w + map.k)) := by
    have below : 2 ^ (map.w + map.k) * map.block <
        2 ^ (map.w + map.k) * 2 ^ (32 - (map.w + map.k)) := by
      rw [← block, ← whole]
      exact map.base.isLt
    exact Nat.lt_of_mul_lt_mul_left below
  have row : i.toNat + 1 ≤ 2 ^ map.k := place
  have fields : 2 ^ map.w * i.toNat + map.clClintSet < 2 ^ (map.w + map.k) := by
    calc 2 ^ map.w * i.toNat + map.clClintSet < 2 ^ map.w * (i.toNat + 1) := by
          rw [Nat.mul_succ]
          exact Nat.add_lt_add_left map.inside _
      _ ≤ 2 ^ (map.w + map.k) := by
          rw [Nat.pow_add]
          exact Nat.mul_le_mul_left _ row
  have room : map.base.toNat + (2 ^ map.w * i.toNat + map.clClintSet) < 2 ^ 32 := by
    calc map.base.toNat + (2 ^ map.w * i.toNat + map.clClintSet)
        < 2 ^ (map.w + map.k) * (map.block + 1) := by
          rw [block, Nat.mul_succ]
          exact Nat.add_lt_add_left fields _
      _ ≤ 2 ^ 32 := by
          rw [whole]
          exact Nat.mul_le_mul_left _ last
  rw [ClusterMap.register, BitVec.toNat_add, BitVec.toNat_add, toNat_mul_offset place,
    BitVec.toNat_ofNat, ← Nat.add_mod, Nat.add_assoc, Nat.mod_eq_of_lt room, block, Nat.pow_add]
  ring

theorem toNat_mcastMask {size : BitVec 32} (some : 1 ≤ size.toNat)
    (clusters : size.toNat ≤ map.num.toNat) :
    (map.mcastMask size).toNat = 2 ^ map.w * (size.toNat - 1) := by
  have one : (size - 1).toNat = size.toNat - 1 := BitVec.toNat_sub_of_le some
  have place : (size - 1).toNat < 2 ^ map.k := by
    have := map.places
    omega
  rw [ClusterMap.mcastMask, toNat_mul_offset place, one]

/-- Which clusters agree with the address, by their numbers. -/
theorem agrees_iff {size i t : BitVec 32} (some : 1 ≤ size.toNat)
    (clusters : size.toNat ≤ map.num.toNat) (place : i.toNat < 2 ^ map.k)
    (target : t.toNat < 2 ^ map.k) :
    map.register i &&& ~~~map.mcastMask size = map.register t &&& ~~~map.mcastMask size ↔
      Masks.Matches (size.toNat - 1) t.toNat i.toNat := by
  rw [Masks.matches_iff, toNat_register place, toNat_register target,
    toNat_mcastMask some clusters, Masks.matches_shift map.inside, Masks.matches_above target place]

end Addresses

/-! ## Who is woken -/

section Woken

variable {map : ClusterMap} {size idx : BitVec 32}

theorem cluster_of_ne (later : idx ≠ 0) : (ClusterMap.cluster idx).toNat = 0 := by
  rw [ClusterMap.cluster, if_neg later]
  rfl

theorem cluster_le (idx : BitVec 32) : (ClusterMap.cluster idx).toNat ≤ 1 := by
  unfold ClusterMap.cluster
  split
  · exact Nat.le_refl 1
  · exact Nat.zero_le 1

/-- With two places in the block, the addressed cluster is one of them. -/
theorem cluster_place (two : 2 ≤ map.num.toNat) :
    (ClusterMap.cluster idx).toNat < 2 ^ map.k := by
  have places := map.places
  have low := cluster_le idx
  omega

/-- The store reaches who the sequential variant wakes, number by number. -/
theorem reached_matches (some : 1 ≤ size.toNat) (clusters : size.toNat ≤ map.num.toNat)
    (two : 2 ≤ map.num.toNat) :
    map.reached size idx = {i | i ∈ wakeSequential size idx} ↔
      ∀ i < map.num.toNat, i ≠ idx.toNat →
        (Masks.Matches (size.toNat - 1) (ClusterMap.cluster idx).toNat i ↔ i ≤ size.toNat - 1) := by
  have agree {i : BitVec 32} (there : i.toNat < map.num.toNat) :=
    agrees_iff (t := ClusterMap.cluster idx) some clusters (Nat.lt_of_lt_of_le there map.places)
      (cluster_place two)
  constructor
  · intro same i there other
    have fits : i < 2 ^ 32 := Nat.lt_trans there map.num.isLt
    have value : (BitVec.ofNat 32 i).toNat = i := by
      rw [BitVec.toNat_ofNat, Nat.mod_eq_of_lt fits]
    have apart : BitVec.ofNat 32 i ≠ idx := by
      rintro rfl
      exact other value.symm
    have here : BitVec.ofNat 32 i < map.num := by rwa [BitVec.lt_def, value]
    have member := Set.ext_iff.mp same (BitVec.ofNat 32 i)
    simp only [ClusterMap.reached, Set.mem_ofPred_eq, mem_wakeSequential, here, apart, ne_eq,
      not_false_eq_true, true_and, and_true] at member
    rw [agree (by rwa [value]), BitVec.lt_def, value] at member
    rw [member]
    omega
  · intro each
    ext i
    simp only [ClusterMap.reached, Set.mem_ofPred_eq, mem_wakeSequential]
    constructor
    · rintro ⟨there, other, agrees⟩
      refine ⟨?_, other⟩
      have low := (each i.toNat there fun same => other (BitVec.eq_of_toNat_eq same)).mp
        ((agree there).mp agrees)
      rw [BitVec.lt_def]
      omega
    · rintro ⟨low, other⟩
      have there : i.toNat < map.num.toNat := Nat.lt_of_lt_of_le low clusters
      have within : i.toNat ≤ size.toNat - 1 := Nat.le_sub_one_of_lt low
      refine ⟨there, other, (agree there).mpr ?_⟩
      exact (each i.toNat there fun same => other (BitVec.eq_of_toNat_eq same)).mpr within

/-- **The multicast store wakes the clusters of the communicator exactly for the sizes that are
a power of two from two on**, for size three where the second cluster calls, and in a system of
one cluster. -/
theorem reached_iff (map : ClusterMap) (size idx : BitVec 32) (clusters : size ≤ map.num)
    (caller : idx < size) :
    map.reached size idx = {i | i ∈ wakeSequential size idx} ↔
      (∃ m, size.toNat = 2 ^ (m + 1)) ∨ (size = 3 ∧ idx = 1) ∨ map.num = 1 := by
  have fits : size.toNat ≤ map.num.toNat := clusters
  have below : idx.toNat < size.toNat := caller
  have some : 1 ≤ size.toNat := by omega
  by_cases single : map.num.toNat = 1
  · have one : map.num = 1 := BitVec.eq_of_toNat_eq single
    refine iff_of_true ?_ (Or.inr (Or.inr one))
    ext i
    simp only [ClusterMap.reached, Set.mem_ofPred_eq, mem_wakeSequential]
    have alone : i.toNat < map.num.toNat → i = idx := by
      intro there
      apply BitVec.eq_of_toNat_eq
      omega
    constructor
    · rintro ⟨there, other, -⟩
      exact absurd (alone there) other
    · rintro ⟨there, other⟩
      exact absurd (alone (Nat.lt_of_lt_of_le there fits)) other
  · have two : 2 ≤ map.num.toNat := by omega
    rw [reached_matches some fits two]
    constructor
    · intro all
      by_cases first : idx = 0
      · subst first
        obtain ⟨m, power⟩ := Masks.segment_one (b := size.toNat - 1) (by omega) two all
        exact Or.inl ⟨m, by omega⟩
      · have pos : 0 < idx.toNat := by
          by_contra zero
          exact first (BitVec.eq_of_toNat_eq (by simpa using zero))
        have low : ∀ i ≤ size.toNat - 1, i ≠ idx.toNat → Masks.Matches (size.toNat - 1) 0 i := by
          intro i within other
          have here := (all i (by omega) other).mpr within
          rwa [cluster_of_ne first] at here
        rcases Masks.segment_zero pos (by omega) low with ⟨m, power⟩ | ⟨mask, bottom⟩
        · exact Or.inl ⟨m, by omega⟩
        · have three : size.toNat = 3 := by omega
          exact Or.inr (Or.inl ⟨BitVec.eq_of_toNat_eq three, BitVec.eq_of_toNat_eq bottom⟩)
    · rintro (⟨m, power⟩ | ⟨rfl, rfl⟩ | one)
      · intro i there other
        have room : (ClusterMap.cluster idx).toNat < 2 ^ (m + 1) := by
          rw [Nat.pow_succ]
          have low := cluster_le idx
          have pos := Nat.two_pow_pos m
          omega
        rw [power, Masks.matches_segment room]
        omega
      · intro i there other
        have apart : i ≠ 1 := other
        change Masks.Matches 2 0 i ↔ i ≤ 2
        refine ⟨Masks.le_of_matches_zero, fun within => ?_⟩
        have two_or : i = 0 ∨ i = 2 := by omega
        rcases two_or with rfl | rfl
        · exact fun _ _ => rfl
        · intro j out
          rw [out, Nat.zero_testBit]
      · exact absurd (congrArg BitVec.toNat one) single

end Woken

/-! ### Three clusters -/

/-- Three clusters of 256 KiB, in a block of four. -/
def threeClusters : ClusterMap where
  num := 3
  base := 0x10000000
  w := 18
  k := 2
  clClintSet := 0x20180
  places := by decide
  width := by decide
  aligned := by decide
  inside := by decide

/-- Two of the three clusters. -/
theorem reached_iff_two :
    threeClusters.reached 2 0 = {i | i ∈ wakeSequential 2 0} :=
  (reached_iff threeClusters 2 0 (by decide) (by decide)).mpr (Or.inl ⟨0, rfl⟩)

/-- **Of three clusters, the first wakes only itself and the second**, and the third sleeps on.
Called by the third, the store misses the second. -/
theorem three_missed :
    threeClusters.reached 3 0 ≠ {i | i ∈ wakeSequential 3 0} ∧
      2 ∉ threeClusters.reached 3 0 ∧ 2 ∈ wakeSequential 3 0 ∧
      1 ∉ threeClusters.reached 3 2 ∧ 1 ∈ wakeSequential 3 2 := by
  have third : 2 ∉ threeClusters.reached 3 0 := by
    simp only [ClusterMap.reached, Set.mem_ofPred_eq]
    decide
  have second : 1 ∉ threeClusters.reached 3 2 := by
    simp only [ClusterMap.reached, Set.mem_ofPred_eq]
    decide
  refine ⟨fun same => ?_, third, by decide, second, by decide⟩
  exact third (same ▸ (by decide : 2 ∈ wakeSequential 3 0))

end SnitchCluster.Runtime.Multicast
