/-
# Runtime.UnsignedSchedule -- blocks of an unsigned loop, and every static schedule

The unsigned function computes with its bounds reinterpreted in `int`.  A loop that stays
in one half of the range is the signed loop, moved, and so are the blocks of the threads
(`block_moves`); a thread without work must not get an empty block that lies across the
middle.  A loop that crosses the middle has another size in `int`, and no team of more
than one thread shares it out (`not_partitions_across`).
-/
import SnitchCluster.Runtime.ChunkedSchedule

namespace SnitchCluster.Runtime.StaticSchedule

open Theory

/-- The unsigned loops that a team shares out in blocks: in one half of the range, or one
thread counting down across its middle. -/
def UnsignedStaticFits (nbThreads : Nat) (b : Bounds) (incr : Int) : Prop :=
  ((b.read.plower < 0 ↔ b.read.pupper < 0) ∧ StaticFits nbThreads b.read incr ∧
    (iterations b.read incr < nbThreads →
      (toInt (b.read.plower + iterations b.read incr) < 0 ↔
        toInt (b.read.plower + iterations b.read incr) - incr < 0))) ∨
  (nbThreads = 1 ∧ b.read.plower < 0 ∧ 0 ≤ b.read.pupper ∧
    InInt (b.read.pupper - b.read.plower) ∧ incr ∣ b.read.pupper - b.read.plower)

/-! ## A loop in one half of the range -/

section Half

variable {b : Bounds} {incr : Int} {nbThreads : Nat}

/-- What a thread that runs the moved values shares out, moved back. -/
theorem Partitions.move {sched : SchedType} {b b' : Bounds} {out out' : Nat → Bounds} {c : Int}
    (works : Partitions sched nbThreads b incr out) (plower : b'.plower = b.plower + c)
    (pupper : b'.pupper = b.pupper + c)
    (moves : ∀ t < nbThreads, ∀ v, v ∈ executes sched b'.pupper incr (out' t) ↔
      v - c ∈ executes sched b.pupper incr (out t))
    (flags : ∀ t < nbThreads, (out' t).plastiter = (out t).plastiter) :
    Partitions sched nbThreads b' incr out' := by
  have loop : ∀ v, v ∈ progression b'.plower b'.pupper incr ↔
      v - c ∈ progression b.plower b.pupper incr := by
    intro v
    rw [plower, pupper, mem_progression_move]
  refine ⟨fun v here => ?_, fun t less v here => ?_, fun t less => ?_⟩
  · obtain ⟨t, ⟨less, runs⟩, unique⟩ := works.once _ ((loop v).mp here)
    exact ⟨t, ⟨less, (moves t less v).mpr runs⟩,
      fun t' ⟨less', runs'⟩ => unique t' ⟨less', (moves t' less' v).mp runs'⟩⟩
  · exact (loop v).mpr (works.only t less ((moves t less v).mp here))
  · rw [flags t less, works.last t less]
    constructor
    · rintro ⟨v, runs, last⟩
      refine ⟨v + c, (moves t less _).mpr (by rwa [Int.add_sub_cancel]), ?_⟩
      rw [pupper, ← within_move]
      convert last using 2
      omega
    · rintro ⟨v, runs, last⟩
      refine ⟨v - c, (moves t less v).mp runs, ?_⟩
      rw [pupper, ← within_move] at last
      convert last using 2
      omega

/-- The block that a thread gets. -/
def unsignedBlock (b : Bounds) (incr : Int) (nbThreads t : Nat) : Bounds :=
  (blockOut b.read incr nbThreads t).ofInt .kmpUint32

theorem kmpcForStaticInit4u_static (step : incr ≠ 0) (some : Within incr b.read.plower b.read.pupper)
    (lower : IterType.kmpUint32.Mem b.plower) (upper : IterType.kmpUint32.Mem b.pupper)
    (team : 0 < nbThreads) {t : Nat} {chunk : Int} {out : Bounds} :
    kmpcForStaticInit .kmpUint32 .kmpSchStatic nbThreads t b incr chunk = .some out ↔
      (InInt (b.read.pupper - b.read.plower) ∧ iterations b.read incr < 2 ^ 31) ∧
        BlockDefined b.read incr nbThreads t ∧ out = unsignedBlock b incr nbThreads t := by
  simp only [kmpcForStaticInit_eq lower upper, Option.map_eq_some_iff,
    kmpcForStaticInit4_static step some team]
  constructor
  · rintro ⟨_, ⟨fits, defined, rfl⟩, rfl⟩
    exact ⟨fits, defined, rfl⟩
  · rintro ⟨fits, defined, rfl⟩
    exact ⟨_, ⟨fits, defined, rfl⟩, rfl⟩

section

variable (lower : IterType.kmpUint32.Mem b.plower) (upper : IterType.kmpUint32.Mem b.pupper)
    (half : b.read.plower < 0 ↔ b.read.pupper < 0)

include lower upper half

/-- The distance between a value and its reinterpretation, in a loop in one half. -/
theorem move_upper : b.pupper = b.read.pupper + (b.plower - b.read.plower) := by
  have same := IterType.ofInt_of_half lower (fun _ => half.symm) (toInt_inInt b.pupper)
  have back : IterType.kmpUint32.ofInt b.read.pupper = b.pupper := IterType.ofInt_toInt upper
  have read : b.read.plower = toInt b.plower := rfl
  rw [back, ← read] at same
  omega

theorem mem_loop_read {v : Int} : v ∈ progression b.plower b.pupper incr ↔
      v - (b.plower - b.read.plower) ∈ progression b.read.plower b.read.pupper incr := by
  have whole : b.read.plower + (b.plower - b.read.plower) = b.plower := by omega
  rw [← mem_progression_move, whole, ← move_upper lower upper half]

theorem within_read
    (some : Within incr b.plower b.pupper) : Within incr b.read.plower b.read.pupper := by
  rw [move_upper lower upper half] at some
  have moved := within_move.mpr some
  have value : b.plower - (b.plower - b.read.plower) = b.read.plower := by omega
  rwa [value] at moved

end

/-- The values of the loop are in the half. -/
theorem half_loop (step : incr ≠ 0) (some : Within incr b.plower b.pupper)
    (half : b.plower < 0 ↔ b.pupper < 0) {i : Nat} (below : i < count b incr) :
    b.plower + i * incr < 0 ↔ b.plower < 0 := by
  have here := (within_iff_lt step some i).mpr below
  unfold Within at here
  rcases lt_or_gt_of_ne step with down | up
  · rw [if_neg (by omega)] at here
    have := Int.mul_nonpos_of_nonneg_of_nonpos (Int.natCast_nonneg i) down.le
    omega
  · rw [if_pos up] at here
    have := Int.mul_nonneg (Int.natCast_nonneg i) up.le
    omega

/-- A block in the half is moved with the loop. -/
theorem block_moves (lower : IterType.kmpUint32.Mem b.plower) {out : Bounds} {upper : Int}
    (first : InInt out.plower) (last : InInt out.pupper) (half : out.plower < 0 ↔ b.read.plower < 0)
    (half' : out.pupper < 0 ↔ b.read.plower < 0) {v : Int} :
    v ∈ executes .kmpSchStatic (upper + (b.plower - b.read.plower)) incr (out.ofInt .kmpUint32) ↔
      v - (b.plower - b.read.plower) ∈ executes .kmpSchStatic upper incr out := by
  have plower : (out.ofInt .kmpUint32).plower = out.plower + (b.plower - b.read.plower) := by
    have moved := IterType.ofInt_of_half lower (fun _ => half) first
    have same : (out.ofInt .kmpUint32).plower = IterType.kmpUint32.ofInt out.plower := rfl
    rw [same, moved]
    have read : b.read.plower = toInt b.plower := rfl
    omega
  have pupper : (out.ofInt .kmpUint32).pupper = out.pupper + (b.plower - b.read.plower) := by
    have moved := IterType.ofInt_of_half lower (fun _ => half') last
    have same : (out.ofInt .kmpUint32).pupper = IterType.kmpUint32.ofInt out.pupper := rfl
    rw [same, moved]
    have read : b.read.plower = toInt b.plower := rfl
    omega
  unfold executes
  rw [plower, pupper]
  exact mem_progression_move

/-- An empty block on one side stays empty. -/
theorem executes_idle (step : incr ≠ 0) {out : Bounds} {upper : Int} (first : InInt out.plower)
    (last : InInt out.pupper) (empty : out.pupper = out.plower - incr)
    (side : out.plower < 0 ↔ out.pupper < 0) :
    executes .kmpSchStatic upper incr (out.ofInt .kmpUint32) = ∅ := by
  have plower : (out.ofInt .kmpUint32).plower = toUnsigned out.plower := rfl
  have pupper : (out.ofInt .kmpUint32).pupper = toUnsigned out.plower - incr := by
    have same : (out.ofInt .kmpUint32).pupper = toUnsigned out.pupper := rfl
    rw [same, toUnsigned_eq first, toUnsigned_eq last]
    split <;> split <;> omega
  unfold executes
  rw [plower, pupper]
  exact progression_empty step

theorem busy_pupper {t : Nat} (busy : 0 < blockLen (count b incr) nbThreads t)
    (lower : (blockOut b incr nbThreads t).plower =
      b.plower + blockStart (count b incr) nbThreads t * incr) :
    (blockOut b incr nbThreads t).pupper = b.plower +
      ((blockStart (count b incr) nbThreads t + (blockLen (count b incr) nbThreads t - 1) : Nat) :
        Int) * incr := by
  have same : (blockOut b incr nbThreads t).pupper = (blockOut b incr nbThreads t).plower +
    (blockLen (count b incr) nbThreads t : Nat) * incr - incr := rfl
  rw [same, lower]
  push_cast [Int.ofNat_sub busy]
  ring

theorem idle_pupper {t : Nat} (idle : blockLen (count b incr) nbThreads t = 0) :
    (blockOut b incr nbThreads t).pupper = (blockOut b incr nbThreads t).plower - incr := by
  have same : (blockOut b incr nbThreads t).pupper = (blockOut b incr nbThreads t).plower +
    (blockLen (count b incr) nbThreads t : Nat) * incr - incr := rfl
  rw [same, idle]
  ring

/-- An idle thread's empty block is on one side. -/
def IdleSide (b : Bounds) (incr : Int) (nbThreads : Nat) : Prop :=
  count b incr < nbThreads →
    (toInt (b.plower + count b incr) < 0 ↔ toInt (b.plower + count b incr) - incr < 0)

section

variable (step : incr ≠ 0) (some : Within incr b.read.plower b.read.pupper)
    (lower : IterType.kmpUint32.Mem b.plower) (upper : IterType.kmpUint32.Mem b.pupper)
    (half : b.read.plower < 0 ↔ b.read.pupper < 0)
    (defined : ∀ t < nbThreads, BlockDefined b.read incr nbThreads t)

include step some lower upper half defined

/-- The threads run the moved values of the signed loop. -/
theorem blocks_move
    (place : incr = 1 ∨ count b.read incr < nbThreads ∨ nbThreads ∣ count b.read incr)
    (idle : IdleSide b.read incr nbThreads) {t : Nat} (less : t < nbThreads) {v : Int} :
    v ∈ executes .kmpSchStatic b.pupper incr (unsignedBlock b incr nbThreads t) ↔
      v - (b.plower - b.read.plower) ∈
        executes .kmpSchStatic b.read.pupper incr (blockOut b.read incr nbThreads t) := by
  have first : InInt (blockOut b.read incr nbThreads t).plower := toInt_inInt _
  have last := (defined t less).pupper
  rcases Nat.eq_zero_or_pos (blockLen (count b.read incr) nbThreads t) with none | busy
  · have empty := idle_pupper none
    obtain ⟨few, -, value⟩ := idle_block (Nat.zero_lt_of_lt less) none
    have side := idle few
    rw [← value, ← empty] at side
    have nothing : executes .kmpSchStatic b.pupper incr (unsignedBlock b incr nbThreads t) = ∅ :=
      executes_idle step first last empty side
    have nothing' : executes .kmpSchStatic b.read.pupper incr
        (blockOut b.read incr nbThreads t) = ∅ := by
      unfold executes
      rw [empty]
      exact progression_empty step
    rw [nothing, nothing']
    exact Iff.rfl
  · have inside := block_le (n := count b.read incr) less
    have value : (blockOut b.read incr nbThreads t).plower =
        b.read.plower + blockStart (count b.read incr) nbThreads t * incr := by
      have same : (blockOut b.read incr nbThreads t).plower =
        toInt (blockLower b.read incr (count b.read incr) nbThreads t) := rfl
      rw [same, blockLower_eq place busy]
      exact toInt_of_inInt (inInt_loop step some (toInt_inInt _) (toInt_inInt _) (by omega))
    have value' := busy_pupper busy value
    rw [move_upper lower upper half]
    refine block_moves lower first last ?_ ?_
    · rw [value]
      exact half_loop step some half (by omega)
    · rw [value']
      exact half_loop step some half (by omega)

/-- The threads with the longer blocks run the moved values, however the others are placed. -/
theorem early_moves (team : 0 < nbThreads) {t : Nat}
    (early : t < count b.read incr % nbThreads) {v : Int} :
    v ∈ executes .kmpSchStatic b.pupper incr (unsignedBlock b incr nbThreads t) ↔
      v - (b.plower - b.read.plower) ∈
        executes .kmpSchStatic b.read.pupper incr (blockOut b.read incr nbThreads t) := by
  have less := early.trans (Nat.mod_lt _ team)
  have inside := block_le (n := count b.read incr) less
  have busy : 0 < blockLen (count b.read incr) nbThreads t := by
    rw [blockLen, if_pos early]
    exact Nat.succ_pos _
  have value := early_plower step some (toInt_inInt _) (toInt_inInt _) team early
  have value' := busy_pupper busy value
  rw [move_upper lower upper half]
  refine block_moves lower (toInt_inInt _) (defined t less).pupper ?_ ?_
  · rw [value]
    exact half_loop step some half (by omega)
  · rw [value']
    exact half_loop step some half (by omega)

end

/-- The first thread behind the longer blocks is on one side: it starts and ends within
the loop, or before it. -/
theorem misplaced_side (step : incr ≠ 0) (some : Within incr b.plower b.pupper)
    (lower : InInt b.plower) (upper : InInt b.pupper)
    (half : b.plower < 0 ↔ b.pupper < 0) (many : nbThreads ≤ count b incr) (team : 0 < nbThreads) :
    ((blockOut b incr nbThreads (count b incr % nbThreads)).plower < 0 ↔ b.plower < 0) ∧
      ((blockOut b incr nbThreads (count b incr % nbThreads)).pupper < 0 ↔ b.plower < 0) := by
  have split := Nat.mod_add_div (count b incr) nbThreads
  have rest_lt := Nat.mod_lt (count b incr) team
  have chunk := Nat.div_pos many team
  have len : blockLen (count b incr) nbThreads (count b incr % nbThreads) =
      count b incr / nbThreads := by
    rw [blockLen, if_neg (Nat.lt_irrefl _), Nat.add_zero]
  have blocks := Nat.mul_le_mul_right (count b incr / nbThreads)
    (show count b incr % nbThreads + 1 ≤ nbThreads from rest_lt)
  rw [Nat.add_mul, Nat.one_mul] at blocks
  have start : blockLower b incr (count b incr) nbThreads (count b incr % nbThreads) =
      b.plower + ((count b incr % nbThreads * (count b incr / nbThreads) : Nat) : Int) * incr +
        (count b incr % nbThreads : Nat) := by
    rw [blockLower, if_neg (Nat.lt_irrefl _)]
  have stop : ((count b incr / nbThreads : Nat) : Int) * incr - incr =
      ((count b incr / nbThreads - 1 : Nat) : Int) * incr := by
    rw [Int.ofNat_sub chunk]
    ring
  have plower : (blockOut b incr nbThreads (count b incr % nbThreads)).plower =
      toInt (b.plower + ((count b incr % nbThreads * (count b incr / nbThreads) : Nat) : Int) * incr +
        (count b incr % nbThreads : Nat)) := by
    rw [← start]
    rfl
  have pupper : (blockOut b incr nbThreads (count b incr % nbThreads)).pupper =
      (blockOut b incr nbThreads (count b incr % nbThreads)).plower +
        ((count b incr / nbThreads - 1 : Nat) : Int) * incr := by
    have same : (blockOut b incr nbThreads (count b incr % nbThreads)).pupper =
      (blockOut b incr nbThreads (count b incr % nbThreads)).plower +
        (blockLen (count b incr) nbThreads (count b incr % nbThreads) : Nat) * incr - incr := rfl
    rw [same, len, ← stop]
    ring
  generalize count b incr % nbThreads = r at *
  generalize count b incr / nbThreads = k at *
  have sum : ((r * k : Nat) : Int) * incr + ((k - 1 : Nat) : Int) * incr =
      ((r * k + (k - 1) : Nat) : Int) * incr := by
    push_cast
    ring
  rcases lt_or_gt_of_ne step with down | up
  · -- the remainder goes back, not beyond the start
    have last := (half_loop step some half (i := r * k + (k - 1)) (by omega)).symm
    have inside := (within_iff_lt step some (r * k + (k - 1))).mpr (by omega)
    have back : ((r * k : Nat) : Int) * incr ≤ -((r * k : Nat) : Int) := by
      have := Int.mul_le_mul_of_nonneg_left (show incr ≤ -1 by omega) (Int.natCast_nonneg (r * k))
      omega
    have le : r ≤ r * k := Nat.le_mul_of_pos_right r chunk
    have ahead := Int.mul_nonpos_of_nonneg_of_nonpos (Int.natCast_nonneg (k - 1)) down.le
    unfold Within at inside
    rw [if_neg (by omega)] at inside
    have exact_ := toInt_of_inInt (x := b.plower + ((r * k : Nat) : Int) * incr + (r : Nat))
      (by unfold InInt at *; omega)
    rw [pupper, plower, exact_]
    omega
  · -- the remainder is less than as many steps
    have step_two := Int.mul_le_mul_of_nonneg_left (show (1 : Int) ≤ incr by omega)
      (Int.natCast_nonneg r)
    have sum' : ((r * k + (k - 1) : Nat) : Int) * incr + (r : Int) * incr =
        ((r * k + (k - 1) + r : Nat) : Int) * incr := by
      push_cast
      ring
    have inside := (within_iff_lt step some (r * k + (k - 1) + r)).mpr (by omega)
    have ahead := Int.mul_nonneg (Int.natCast_nonneg (k - 1)) up.le
    have ahead' := Int.mul_nonneg (Int.natCast_nonneg (r * k)) up.le
    unfold Within at inside
    rw [if_pos up] at inside
    have exact_ := toInt_of_inInt (x := b.plower + ((r * k : Nat) : Int) * incr + (r : Nat))
      (by unfold InInt at *; omega)
    rw [pupper, plower, exact_]
    omega

section

variable (step : incr ≠ 0) (some : Within incr b.read.plower b.read.pupper)
    (lower : IterType.kmpUint32.Mem b.plower) (upper : IterType.kmpUint32.Mem b.pupper)
    (half : b.read.plower < 0 ↔ b.read.pupper < 0)

include step some lower upper half

theorem place_of_partitions (team : 0 < nbThreads) (small : nbThreads < 256)
    (span : InInt (b.read.pupper - b.read.plower))
    (defined : ∀ t < nbThreads, BlockDefined b.read incr nbThreads t)
    (works : Partitions .kmpSchStatic nbThreads b incr (unsignedBlock b incr nbThreads)) :
    incr = 1 ∨ count b.read incr < nbThreads ∨ nbThreads ∣ count b.read incr := by
  by_contra misplaced
  obtain ⟨other, misplaced⟩ := not_or.mp misplaced
  obtain ⟨many, rest⟩ := not_or.mp misplaced
  have many := Nat.not_lt.mp many
  have less := Nat.mod_lt (count b.read incr) team
  have chunk := Nat.div_pos many team
  have len : blockLen (count b.read incr) nbThreads (count b.read incr % nbThreads) =
      count b.read incr / nbThreads := by
    rw [blockLen, if_neg (Nat.lt_irrefl _), Nat.add_zero]
  obtain ⟨side, side'⟩ :=
    misplaced_side step some (toInt_inInt _) (toInt_inInt _) half many team
  have moves : ∀ v, v ∈ executes .kmpSchStatic (b.read.pupper + (b.plower - b.read.plower)) incr
      (unsignedBlock b incr nbThreads (count b.read incr % nbThreads)) ↔
        v - (b.plower - b.read.plower) ∈ executes .kmpSchStatic b.read.pupper incr
          (blockOut b.read incr nbThreads (count b.read incr % nbThreads)) := fun v =>
    block_moves lower (toInt_inInt _) (defined _ less).pupper side side'
  rw [← move_upper lower upper half] at moves
  generalize first : (blockOut b.read incr nbThreads (count b.read incr % nbThreads)).plower = x at *
  -- its first value
  have runs : x + (b.plower - b.read.plower) ∈ executes .kmpSchStatic b.pupper incr
      (unsignedBlock b incr nbThreads (count b.read incr % nbThreads)) := by
    refine (moves _).mpr ?_
    rw [Int.add_sub_cancel, mem_blockOut step]
    exact ⟨0, by omega, by rw [first]; simp⟩
  have here := works.only _ less runs
  have inside : x ∈ progression b.read.plower b.read.pupper incr := by
    have moved := (mem_loop_read lower upper half).mp here
    rwa [Int.add_sub_cancel] at moved
  obtain ⟨t, early, runs'⟩ := exists_same_start step some (toInt_inInt _) (toInt_inInt _) span small
    other many team rest (first ▸ inside)
  have runs' : x + (b.plower - b.read.plower) ∈ executes .kmpSchStatic b.pupper incr
      (unsignedBlock b incr nbThreads t) := by
    refine (early_moves step some lower upper half defined team early).mpr ?_
    rwa [Int.add_sub_cancel, ← first]
  have twice := (works.once _ here).unique ⟨less, runs⟩ ⟨early.trans less, runs'⟩
  omega

/-- A block across the middle is not empty, so that its first value would be run twice. -/
theorem idleSide_of_partitions (defined : ∀ t < nbThreads, BlockDefined b.read incr nbThreads t)
    (works : Partitions .kmpSchStatic nbThreads b incr (unsignedBlock b incr nbThreads)) :
    IdleSide b.read incr nbThreads := by
  intro few
  by_contra across
  have none : blockLen (count b.read incr) nbThreads (count b.read incr) = 0 := by
    rw [blockLen, Nat.div_eq_of_lt few, Nat.mod_eq_of_lt few, if_neg (Nat.lt_irrefl _)]
  obtain ⟨-, -, value⟩ := idle_block (Nat.zero_lt_of_lt few) none
  have empty := idle_pupper none
  have first : InInt (blockOut b.read incr nbThreads (count b.read incr)).plower := toInt_inInt _
  have last := (defined _ few).pupper
  rw [← value] at across
  have plower : (unsignedBlock b incr nbThreads (count b.read incr)).plower =
      toUnsigned (blockOut b.read incr nbThreads (count b.read incr)).plower := rfl
  have pupper : (unsignedBlock b incr nbThreads (count b.read incr)).pupper =
      toUnsigned (blockOut b.read incr nbThreads (count b.read incr)).pupper := rfl
  rw [toUnsigned_eq first] at plower
  rw [toUnsigned_eq last] at pupper
  have some' : Within incr (unsignedBlock b incr nbThreads (count b.read incr)).plower
      (unsignedBlock b incr nbThreads (count b.read incr)).pupper := by
    rw [plower, pupper]
    unfold Within InInt at *
    split <;> split <;> split <;> omega
  have runs : (unsignedBlock b incr nbThreads (count b.read incr)).plower ∈
      executes .kmpSchStatic b.pupper incr (unsignedBlock b incr nbThreads (count b.read incr)) :=
    ⟨0, by simp, some'⟩
  have here := works.only _ few runs
  -- the thread whose block it is
  obtain ⟨j, below, at_j⟩ := (mem_loop step some).mp ((mem_loop_read lower upper half).mp here)
  have early : j < count b.read incr % nbThreads := by rwa [Nat.mod_eq_of_lt few]
  have start := early_plower step some (toInt_inInt _) (toInt_inInt _) (Nat.zero_lt_of_lt few) early
  have index : blockStart (count b.read incr) nbThreads j = j := by
    rw [blockStart, Nat.div_eq_of_lt few, Nat.mod_eq_of_lt few, Nat.min_eq_left below.le]
    omega
  have runs' : (unsignedBlock b incr nbThreads (count b.read incr)).plower ∈
      executes .kmpSchStatic b.pupper incr (unsignedBlock b incr nbThreads j) := by
    refine (early_moves step some lower upper half defined (Nat.zero_lt_of_lt few) early).mpr ?_
    rw [mem_blockOut step, start, index, at_j]
    refine ⟨0, ?_, by simp⟩
    rw [blockLen, if_pos early]
    exact Nat.succ_pos _
  have twice := (works.once _ here).unique ⟨few, runs⟩ ⟨below.trans few, runs'⟩
  omega

theorem partitions_half_iff (team : 0 < nbThreads) (small : nbThreads < 256)
    (span : InInt (b.read.pupper - b.read.plower)) (size : iterations b.read incr < 2 ^ 31)
    (defined : ∀ t < nbThreads, BlockDefined b.read incr nbThreads t) :
    Partitions .kmpSchStatic nbThreads b incr (unsignedBlock b incr nbThreads) ↔
      Partitions .kmpSchStatic nbThreads b.read incr (blockOut b.read incr nbThreads) ∧
        IdleSide b.read incr nbThreads := by
  have whole : b.plower = b.read.plower + (b.plower - b.read.plower) := by omega
  have whole' := move_upper lower upper half
  constructor
  · intro works
    have place := place_of_partitions step some lower upper half team small span defined works
    have idle := idleSide_of_partitions step some lower upper half defined works
    refine ⟨works.move (c := b.read.plower - b.plower) (by omega) (by omega) (fun t less v => ?_)
      fun t less => rfl, idle⟩
    have moves := blocks_move (v := v - (b.read.plower - b.plower)) step some lower upper half defined
      place idle less
    have back : v - (b.read.plower - b.plower) - (b.plower - b.read.plower) = v := by omega
    rw [back] at moves
    exact moves.symm
  · rintro ⟨works, idle⟩
    have fits := staticFits_of_partitions step some (toInt_inInt _) (toInt_inInt _) team small span
      size defined works
    exact works.move whole whole' (fun t less v => blocks_move step some lower upper half defined
      (fits.place some) idle less) fun t less => rfl

end

end Half

/-! ## A loop across the middle of the range -/

section Across

variable {b : Bounds} {incr : Int} {nbThreads : Nat}

/-- The bounds are in the order of the increment as unsigned values only. -/
theorem across_cases (some : Within incr b.plower b.pupper) (step : incr ≠ 0)
    (lower : IterType.kmpUint32.Mem b.plower) (upper : IterType.kmpUint32.Mem b.pupper)
    (across : ¬(b.read.plower < 0 ↔ b.read.pupper < 0)) :
    (0 < incr ∧ 0 ≤ b.read.plower ∧ b.read.pupper < 0 ∧ b.plower = b.read.plower ∧
      b.pupper = b.read.pupper + 2 ^ 32) ∨
    (incr < 0 ∧ b.read.plower < 0 ∧ 0 ≤ b.read.pupper ∧ b.plower = b.read.plower + 2 ^ 32 ∧
      b.pupper = b.read.pupper) := by
  have start : InInt b.read.plower := toInt_inInt _
  have stop : InInt b.read.pupper := toInt_inInt _
  have back : toUnsigned b.read.plower = b.plower := IterType.ofInt_toInt lower
  have back' : toUnsigned b.read.pupper = b.pupper := IterType.ofInt_toInt upper
  rw [toUnsigned_eq start] at back
  rw [toUnsigned_eq stop] at back'
  unfold Within at some
  unfold InInt at start stop
  split at some <;> split at back <;> split at back' <;> omega

theorem toInt_toUnsigned {x : Int} (inside : InInt x) : toInt (toUnsigned x) = x := by
  obtain ⟨k, off⟩ := toInt_eq (toUnsigned x)
  have bounded := toInt_inInt (toUnsigned x)
  unfold toUnsigned InInt at *
  omega

/-- One thread gets the whole loop, of the size that `int` gives it. -/
def singleOut (b : Bounds) (incr : Int) : Bounds :=
  let pupper := b.plower + iterations b incr * incr - incr
  { plastiter := pupper == b.pupper && decide (b.plower ≤ b.pupper), plower := b.plower, pupper,
    pstride := iterations b incr }

theorem kmpcForStaticInit4_single (step : incr ≠ 0) (lower : InInt b.plower) {chunk : Int}
    {out : Bounds} : kmpcForStaticInit4 .kmpSchStatic 1 0 b incr chunk = .some out ↔
      (InInt (b.pupper - b.plower) ∧ iterations b incr < 2 ^ 31) ∧
        InInt (iterations b incr * incr) ∧ InInt (b.plower + iterations b incr * incr) ∧
        InInt (b.plower + iterations b incr * incr - incr) ∧ out = singleOut b incr := by
  have inside : InInt (b.pupper - b.plower) → iterations b incr < 2 ^ 31 →
      InInt (iterations b incr) := by
    intro span size
    have bounded := Int.natAbs_tdiv_le_natAbs (b.pupper - b.plower) incr
    unfold iterations InInt at *
    omega
  have rest : toInt (toUnsigned (iterations b incr) - iterations b incr) = 0 := by
    obtain ⟨k, off⟩ := toInt_eq (toUnsigned (iterations b incr) - iterations b incr)
    have bounded := toInt_inInt (toUnsigned (iterations b incr) - iterations b incr)
    unfold toUnsigned InInt at *
    omega
  have share : preciseChunk 0 b.plower incr (iterations b incr) 0 =
      .some (iterations b incr, b.plower) := by
    rw [preciseChunk, if_neg (by decide)]
    simp [toInt_of_inInt lower]
  simp only [kmpcForStaticInit4, static, Option.bind_eq_bind, Option.bind_eq_some_iff,
    loopSize_eq_some step, int_eq_some, Option.some.injEq, Nat.cast_one, Int.ediv_one, Int.mul_one]
  constructor
  · rintro ⟨_, ⟨⟨span, size⟩, rfl⟩, _, ⟨-, rfl⟩, _, shared, after⟩
    rw [toInt_toUnsigned (inside span size), rest, share, Option.some.injEq] at shared
    subst shared
    obtain ⟨_, ⟨steps, rfl⟩, _, ⟨stop, rfl⟩, _, ⟨last, rfl⟩, rfl⟩ := after
    rw [toInt_toUnsigned (inside span size)]
    exact ⟨⟨span, size⟩, steps, stop, last, rfl⟩
  · rintro ⟨⟨span, size⟩, steps, stop, last, rfl⟩
    refine ⟨_, ⟨⟨span, size⟩, rfl⟩, _, ⟨?_, rfl⟩, (iterations b incr, b.plower), ?_, _,
      ⟨steps, rfl⟩, _, ⟨stop, rfl⟩, _, ⟨last, rfl⟩, ?_⟩
    · rw [toInt_toUnsigned (inside span size)]
      exact inside span size
    · rw [toInt_toUnsigned (inside span size), rest, share]
    · rw [toInt_toUnsigned (inside span size)]
      rfl

/-- The last value of a loop is run by a thread with a flag. -/
theorem Partitions.exists_flag {sched : SchedType} {out : Nat → Bounds} (step : incr ≠ 0)
    (some : Within incr b.plower b.pupper) (works : Partitions sched nbThreads b incr out) :
    ∃ t < nbThreads, (out t).plastiter = true := by
  have positive := count_pos some
  have here := (mem_loop step some).mpr ⟨count b incr - 1, by omega, rfl⟩
  obtain ⟨t, ⟨less, runs⟩, -⟩ := works.once _ here
  exact ⟨t, less, (works.last t less).mpr
    ⟨_, runs, (is_last_iff step some (by omega)).mpr (by omega)⟩⟩

/-- One thread that gets the loop's own bounds, with the flag. -/
theorem partitions_whole (step : incr ≠ 0) (some : Within incr b.plower b.pupper)
    {out : Nat → Bounds} (flag : (out 0).plastiter = true) (plower : (out 0).plower = b.plower)
    (pupper : (out 0).pupper = b.pupper) : Partitions .kmpSchStatic 1 b incr out := by
  have positive := count_pos some
  have runs : ∀ t < 1, executes .kmpSchStatic b.pupper incr (out t) =
      progression b.plower b.pupper incr := by
    intro t less
    rw [Nat.lt_one_iff.mp less]
    unfold executes
    rw [plower, pupper]
  refine ⟨fun v here => ⟨0, ⟨Nat.one_pos, runs 0 Nat.one_pos ▸ here⟩, fun t ⟨less, _⟩ => ?_⟩,
    fun t less => (runs t less).le, fun t less => ?_⟩
  · exact Nat.lt_one_iff.mp less
  · rw [Nat.lt_one_iff.mp less, runs 0 Nat.one_pos]
    refine iff_of_true flag ⟨_, (mem_loop step some).mpr ⟨count b incr - 1, by omega, rfl⟩, ?_⟩
    exact (is_last_iff step some (by omega)).mpr (by omega)

theorem single_across_iff (step : incr ≠ 0) (some : Within incr b.plower b.pupper)
    (lower : IterType.kmpUint32.Mem b.plower) (upper : IterType.kmpUint32.Mem b.pupper)
    (across : ¬(b.read.plower < 0 ↔ b.read.pupper < 0)) (chunk : Int) :
    Works (fun t => kmpcForStaticInit .kmpUint32 .kmpSchStatic 1 t b incr chunk) .kmpSchStatic 1 b
      incr ↔ b.read.plower < 0 ∧ 0 ≤ b.read.pupper ∧ InInt (b.read.pupper - b.read.plower) ∧
        incr ∣ b.read.pupper - b.read.plower := by
  have start : InInt b.read.plower := toInt_inInt _
  have size_mul : iterations b.read incr * incr =
      (b.read.pupper - b.read.plower).tdiv incr * incr + incr := by
    unfold iterations
    ring
  constructor
  · rintro ⟨out, computes, works⟩
    obtain ⟨t, less, flag⟩ := works.exists_flag step some
    rw [Nat.lt_one_iff.mp less] at flag
    have computed := computes 0 Nat.one_pos
    simp only [kmpcForStaticInit_eq lower upper, Option.map_eq_some_iff,
      kmpcForStaticInit4_single step start] at computed
    obtain ⟨_, ⟨⟨span, -⟩, -, -, -, rfl⟩, value⟩ := computed
    rw [← value] at flag
    simp only [Bounds.ofInt, singleOut, Bool.and_eq_true, beq_iff_eq, decide_eq_true_eq] at flag
    refine ⟨by omega, by omega, span, (b.read.pupper - b.read.plower).tdiv incr, ?_⟩
    have comm := Int.mul_comm incr ((b.read.pupper - b.read.plower).tdiv incr)
    omega
  · rintro ⟨negative, nonneg, span, exact_⟩
    have whole := Int.tdiv_mul_cancel exact_
    obtain ⟨-, above, -⟩ | ⟨down, -⟩ := across_cases some step lower upper across
    · omega
    · have long : -incr ≤ b.read.pupper - b.read.plower :=
        Int.le_of_dvd (by omega) (Int.neg_dvd.mpr exact_)
      have few : iterations b.read incr < 2 ^ 31 := by
        have nonpos : (b.read.pupper - b.read.plower).tdiv incr ≤ 0 := by
          by_contra more
          have := Int.mul_neg_of_pos_of_neg (Int.not_le.mp more) down
          omega
        unfold iterations
        omega
      have stop : InInt b.read.pupper := toInt_inInt _
      have computed : kmpcForStaticInit4 .kmpSchStatic 1 0 b.read incr chunk =
          .some (singleOut b.read incr) := by
        refine (kmpcForStaticInit4_single step start).mpr ⟨⟨span, few⟩, ?_, ?_, ?_, rfl⟩
        all_goals
          unfold InInt at *
          omega
      refine ⟨fun _ => (singleOut b.read incr).ofInt .kmpUint32, fun t less => ?_, ?_⟩
      · rw [Nat.lt_one_iff.mp less]
        exact (kmpcForStaticInit_eq lower upper).trans (congrArg _ computed)
      · refine partitions_whole step some ?_ ?_ ?_
        · simp only [Bounds.ofInt, singleOut, Bool.and_eq_true, beq_iff_eq, decide_eq_true_eq]
          omega
        · exact IterType.ofInt_toInt lower
        · have last : b.read.plower + iterations b.read incr * incr - incr = b.read.pupper := by omega
          simp only [Bounds.ofInt, singleOut, last]
          exact IterType.ofInt_toInt upper

/-! ### More than one thread -/

/-- The loop's size as `unsigned`. -/
def unsignedSize (b : Bounds) (incr : Int) : Nat := (toUnsigned (iterations b incr)).toNat

/-- The bounds of a thread's block, for any size. -/
def sizedOut (b : Bounds) (incr : Int) (n nbThreads t : Nat) : Bounds :=
  let plower := toInt (blockLower b incr n nbThreads t)
  let pupper := plower + blockLen n nbThreads t * incr - incr
  { plastiter := pupper == b.pupper && decide (plower ≤ b.pupper), plower, pupper,
    pstride := toInt n }

theorem kmpcForStaticInit4_several (step : incr ≠ 0) (several : 1 < nbThreads)
    (small : nbThreads < 256) {t : Nat} {chunk : Int} {out : Bounds} :
    kmpcForStaticInit4 .kmpSchStatic nbThreads t b incr chunk = .some out ↔
      (InInt (b.pupper - b.plower) ∧ iterations b incr < 2 ^ 31) ∧
        unsignedSize b incr / nbThreads * nbThreads < 2 ^ 31 ∧
        InInt (blockLen (unsignedSize b incr) nbThreads t * incr) ∧
        InInt ((sizedOut b incr (unsignedSize b incr) nbThreads t).plower +
          blockLen (unsignedSize b incr) nbThreads t * incr) ∧
        InInt (sizedOut b incr (unsignedSize b incr) nbThreads t).pupper ∧
        out = sizedOut b incr (unsignedSize b incr) nbThreads t := by
  have range : toUnsigned (iterations b incr) = (unsignedSize b incr : Int) ∧
      unsignedSize b incr < 2 ^ 32 := by
    unfold unsignedSize toUnsigned
    omega
  simp only [kmpcForStaticInit4, Option.bind_eq_bind, Option.bind_eq_some_iff,
    loopSize_eq_some step]
  constructor
  · rintro ⟨_, ⟨fits, rfl⟩, done⟩
    rw [range.1, static_eq_some (by omega) (by omega)] at done
    exact ⟨fits, done⟩
  · rintro ⟨fits, done⟩
    refine ⟨_, ⟨fits, rfl⟩, ?_⟩
    rw [range.1, static_eq_some (by omega) (by omega)]
    exact done

/-- The size is one less than the range minus the number of steps to the other bound. -/
theorem iterations_across (sign : 0 < incr ∧ b.pupper < b.plower ∨ incr < 0 ∧ b.plower < b.pupper) :
    iterations b incr = 1 - ((b.pupper - b.plower).natAbs / incr.natAbs : Nat) := by
  have size := Int.natAbs_tdiv (b.pupper - b.plower) incr
  have nonpos : (b.pupper - b.plower).tdiv incr ≤ 0 := by
    rcases sign with ⟨up, back⟩ | ⟨down, ahead⟩
    · have := Int.tdiv_nonneg (show 0 ≤ -(b.pupper - b.plower) by omega) up.le
      rw [Int.neg_tdiv] at this
      omega
    · exact Int.tdiv_nonpos_of_nonneg_of_nonpos (by omega) down.le
  have quotient : (b.pupper - b.plower).natAbs.div incr.natAbs =
    (b.pupper - b.plower).natAbs / incr.natAbs := rfl
  rw [quotient] at size
  unfold iterations
  omega

/-- A product that is in `int` where the size is not leaves room for steps of one only. -/
theorem unit_of_full {n d a : Nat} (several : 1 < nbThreads) (small : nbThreads < 256)
    (size : n + d / a = 2 ^ 32 + 1) (range : d ≤ 2 ^ 31) (some : 0 < a)
    (full : n / nbThreads * nbThreads < 2 ^ 31) : a = 1 := by
  have split := Nat.mod_add_div n nbThreads
  have rest := Nat.mod_lt n (show 0 < nbThreads by omega)
  rw [Nat.mul_comm] at split
  have le := Nat.div_mul_le_self d a
  by_contra more
  have double := Nat.mul_le_mul_left (d / a) (show 2 ≤ a by omega)
  omega

/-- Counting up from a nonnegative start, the blocks run out of the range of `int`. -/
theorem false_of_up {n : Nat} (lower : InInt b.plower) (nonneg : 0 ≤ b.plower) (large : 2 ^ 31 ≤ n)
    (team : 0 < nbThreads) (next : ∀ t < nbThreads,
      InInt ((sizedOut b 1 n nbThreads t).plower + blockLen n nbThreads t * 1)) : False := by
  have starts : ∀ t ≤ nbThreads, InInt (b.plower + blockStart n nbThreads t) := by
    intro t
    induction t with
    | zero =>
      intro _
      simpa [blockStart] using lower
    | succ t ih =>
      intro le
      have here := ih (by omega)
      have after := next t le
      have value : blockLower b 1 n nbThreads t = b.plower + blockStart n nbThreads t := by
        unfold blockLower blockStart
        split
        next early => rw [Int.mul_one]
        next late =>
          rw [Nat.min_eq_right (Nat.not_lt.mp late)]
          push_cast
          ring
      have plower : (sizedOut b 1 n nbThreads t).plower = b.plower + blockStart n nbThreads t := by
        have same : (sizedOut b 1 n nbThreads t).plower = toInt (blockLower b 1 n nbThreads t) := rfl
        rw [same, value]
        exact toInt_of_inInt here
      rw [plower, Int.mul_one] at after
      rw [blockStart_succ]
      push_cast
      rwa [← Int.add_assoc]
  have stop := starts nbThreads (Nat.le_refl _)
  rw [blockStart_all team] at stop
  unfold InInt at stop
  omega

/-- The block that a thread gets, for any size. -/
def sizedBlock (b : Bounds) (incr : Int) (n nbThreads t : Nat) : Bounds :=
  (sizedOut b.read incr n nbThreads t).ofInt .kmpUint32

/-- Counting down from a negative start, the longer blocks stay in the range of `int`, and the
thread behind them starts in the last of them. -/
theorem false_of_down {n : Nat} (negative : b.read.plower < 0)
    (large : 2 ^ 31 + 2 ≤ n) (several : 1 < nbThreads) (small : nbThreads < 256)
    (full : n / nbThreads * nbThreads < 2 ^ 31)
    (next : ∀ t < nbThreads, InInt ((sizedOut b.read (-1) n nbThreads t).plower +
      blockLen n nbThreads t * -1))
    (last : ∀ t < nbThreads, InInt (sizedOut b.read (-1) n nbThreads t).pupper)
    (works : Partitions .kmpSchStatic nbThreads b (-1) (sizedBlock b (-1) n nbThreads)) : False := by
  have lower : InInt b.read.plower := toInt_inInt _
  have split := Nat.mod_add_div n nbThreads
  have rest_lt := Nat.mod_lt n (show 0 < nbThreads by omega)
  have starts : ∀ t ≤ n % nbThreads,
      InInt (b.read.plower - ((t * (n / nbThreads) + t : Nat) : Int)) := by
    intro t
    induction t with
    | zero =>
      intro _
      simpa using lower
    | succ t ih =>
      intro le
      have here := ih (by omega)
      have after := next t (by omega)
      have plower : (sizedOut b.read (-1) n nbThreads t).plower =
          b.read.plower - ((t * (n / nbThreads) + t : Nat) : Int) := by
        have value : blockLower b.read (-1) n nbThreads t =
            b.read.plower - ((t * (n / nbThreads) + t : Nat) : Int) := by
          rw [blockLower, if_pos (by omega), blockStart, Nat.min_eq_left (by omega)]
          ring
        have same : (sizedOut b.read (-1) n nbThreads t).plower =
          toInt (blockLower b.read (-1) n nbThreads t) := rfl
        rw [same, value]
        exact toInt_of_inInt here
      rw [plower, blockLen, if_pos (by omega)] at after
      rw [Nat.add_mul, Nat.one_mul]
      convert after using 1
      push_cast
      ring
  generalize rest : n % nbThreads = r at *
  generalize chunk : n / nbThreads = k at *
  rw [Nat.mul_comm nbThreads] at split
  have some_rest : 3 ≤ r := by omega
  have long : 2 * r ≤ k := by
    by_contra short
    have := Nat.mul_le_mul (show k ≤ 512 by omega) small.le
    omega
  -- the last of the longer blocks, and the block behind it
  have value : blockLower b.read (-1) n nbThreads (r - 1) =
      b.read.plower - (((r - 1) * k + (r - 1) : Nat) : Int) := by
    rw [blockLower, rest, if_pos (by omega), blockStart, rest, chunk, Nat.min_eq_left (by omega)]
    ring
  have value' : blockLower b.read (-1) n nbThreads r = b.read.plower - ((r * k : Nat) : Int) + r := by
    rw [blockLower, rest, if_neg (Nat.lt_irrefl _), chunk]
    ring
  have apart : r * k = (r - 1) * k + k := by
    rw [← Nat.succ_mul]
    congr 1
    omega
  have here := starts (r - 1) (by omega)
  have end_ := starts r (Nat.le_refl _)
  have plower : (sizedOut b.read (-1) n nbThreads (r - 1)).plower =
      b.read.plower - (((r - 1) * k + (r - 1) : Nat) : Int) := by
    have same : (sizedOut b.read (-1) n nbThreads (r - 1)).plower =
      toInt (blockLower b.read (-1) n nbThreads (r - 1)) := rfl
    rw [same, value]
    exact toInt_of_inInt here
  have plower' : (sizedOut b.read (-1) n nbThreads r).plower =
      b.read.plower - ((r * k : Nat) : Int) + r := by
    have same : (sizedOut b.read (-1) n nbThreads r).plower =
      toInt (blockLower b.read (-1) n nbThreads r) := rfl
    rw [same, value']
    refine toInt_of_inInt ?_
    unfold InInt at *
    push_cast at *
    omega
  have pupper : (sizedOut b.read (-1) n nbThreads (r - 1)).pupper =
      (sizedOut b.read (-1) n nbThreads (r - 1)).plower - k := by
    have same : (sizedOut b.read (-1) n nbThreads (r - 1)).pupper =
      (sizedOut b.read (-1) n nbThreads (r - 1)).plower +
        (blockLen n nbThreads (r - 1) : Nat) * -1 - -1 := rfl
    rw [same, blockLen, rest, chunk, if_pos (by omega)]
    push_cast
    ring
  have pupper' : (sizedOut b.read (-1) n nbThreads r).pupper =
      (sizedOut b.read (-1) n nbThreads r).plower - k + 1 := by
    have same : (sizedOut b.read (-1) n nbThreads r).pupper =
      (sizedOut b.read (-1) n nbThreads r).plower + (blockLen n nbThreads r : Nat) * -1 - -1 := rfl
    rw [same, blockLen, rest, chunk, if_neg (Nat.lt_irrefl _)]
    push_cast
    ring
  have moved : ∀ x : Int, InInt x → x < 0 → IterType.kmpUint32.ofInt x = x + 2 ^ 32 := by
    intro x inside below
    have same : IterType.kmpUint32.ofInt x = toUnsigned x := rfl
    rw [same, toUnsigned_eq inside, if_pos below]
  have in_r := last r rest_lt
  have in_before := last (r - 1) (by omega)
  have in_r' : InInt (sizedOut b.read (-1) n nbThreads r).plower := toInt_inInt _
  have in_before' : InInt (sizedOut b.read (-1) n nbThreads (r - 1)).plower := toInt_inInt _
  have runs : b.read.plower - ((r * k : Nat) : Int) + r + 2 ^ 32 ∈
      executes .kmpSchStatic b.pupper (-1) (sizedBlock b (-1) n nbThreads r) := by
    unfold executes sizedBlock Bounds.ofInt
    simp only
    rw [moved _ in_r (by omega), moved _ in_r' (by omega), plower']
    refine first_mem ?_
    unfold Within
    rw [if_neg (by decide)]
    omega
  have runs' : b.read.plower - ((r * k : Nat) : Int) + r + 2 ^ 32 ∈
      executes .kmpSchStatic b.pupper (-1) (sizedBlock b (-1) n nbThreads (r - 1)) := by
    unfold executes sizedBlock Bounds.ofInt
    simp only
    rw [moved _ in_before (by omega), moved _ in_before' (by omega), plower]
    refine ⟨k + 1 - 2 * r, by omega, ?_⟩
    unfold Within
    rw [if_neg (by decide)]
    omega
  have twice := (works.once _ (works.only r rest_lt runs)).unique ⟨rest_lt, runs⟩
    ⟨by omega, runs'⟩
  omega

/-- A size of zero gives every thread the same block. -/
theorem false_of_zero (several : 1 < nbThreads) (some : Within incr b.plower b.pupper)
    (works : Partitions .kmpSchStatic nbThreads b incr (sizedBlock b incr 0 nbThreads)) :
    False := by
  have same : ∀ t, sizedBlock b incr 0 nbThreads t = sizedBlock b incr 0 nbThreads 0 := by
    intro t
    simp [sizedBlock, sizedOut, blockLower, blockLen]
  obtain ⟨t, ⟨less, runs⟩, unique⟩ := works.once _ (first_mem some)
  have first := unique 0 ⟨by omega, by rwa [← same t]⟩
  have second := unique 1 ⟨several, by rwa [same 1, ← same t]⟩
  omega

/-- A size of one leaves the second iteration to the threads without work. -/
theorem false_of_one (several : 1 < nbThreads)
    (lower : IterType.kmpUint32.Mem b.plower) (more : Within incr (b.plower + incr) b.pupper)
    (back : b.plower = if b.read.plower < 0 then b.read.plower + 2 ^ 32 else b.read.plower)
    (sign : 1 < incr ∧ 0 ≤ b.read.plower ∨ incr < 0 ∧ b.read.plower < 0)
    (last : ∀ t < nbThreads, InInt (sizedOut b.read incr 1 nbThreads t).pupper)
    (works : Partitions .kmpSchStatic nbThreads b incr (sizedBlock b incr 1 nbThreads)) :
    False := by
  have start : InInt b.read.plower := toInt_inInt _
  obtain ⟨t, ⟨less, runs⟩, -⟩ := works.once _ ⟨1, by simp, more⟩
  rcases Nat.eq_zero_or_pos t with rfl | later
  · -- the first thread runs the first iteration only
    have plower : (sizedOut b.read incr 1 nbThreads 0).plower = b.read.plower := by
      have same : (sizedOut b.read incr 1 nbThreads 0).plower =
        toInt (blockLower b.read incr 1 nbThreads 0) := rfl
      have value : blockLower b.read incr 1 nbThreads 0 = b.read.plower := by
        simp [blockLower, blockStart, Nat.mod_eq_of_lt several]
      rw [same, value]
      exact toInt_of_inInt start
    have pupper : (sizedOut b.read incr 1 nbThreads 0).pupper = b.read.plower := by
      have same : (sizedOut b.read incr 1 nbThreads 0).pupper =
        (sizedOut b.read incr 1 nbThreads 0).plower + (blockLen 1 nbThreads 0 : Nat) * incr - incr :=
        rfl
      rw [same, plower]
      simp [blockLen, Nat.mod_eq_of_lt several, Nat.div_eq_of_lt several]
    unfold executes sizedBlock Bounds.ofInt at runs
    simp only at runs
    rw [plower, pupper] at runs
    obtain ⟨i, -, within⟩ := runs
    have whole : IterType.kmpUint32.ofInt b.read.plower = b.plower := IterType.ofInt_toInt lower
    rw [whole] at within
    unfold Within at within
    split at within <;> omega
  · -- the others start between two iterations, or with an empty block
    have plower : (sizedOut b.read incr 1 nbThreads t).plower = toInt (b.read.plower + 1) := by
      have same : (sizedOut b.read incr 1 nbThreads t).plower =
        toInt (blockLower b.read incr 1 nbThreads t) := rfl
      have late : ¬t < 1 := by omega
      rw [same, blockLower, Nat.mod_eq_of_lt several, if_neg late, Nat.div_eq_of_lt several]
      simp
    have pupper : (sizedOut b.read incr 1 nbThreads t).pupper =
        (sizedOut b.read incr 1 nbThreads t).plower - incr := by
      have same : (sizedOut b.read incr 1 nbThreads t).pupper =
        (sizedOut b.read incr 1 nbThreads t).plower + (blockLen 1 nbThreads t : Nat) * incr - incr :=
        rfl
      have late : ¬t < 1 := by omega
      rw [same, blockLen, Nat.mod_eq_of_lt several, if_neg late, Nat.div_eq_of_lt several]
      simp
    have inside := last t less
    have inside' : InInt (sizedOut b.read incr 1 nbThreads t).plower := toInt_inInt _
    have block : executes .kmpSchStatic b.pupper incr (sizedBlock b incr 1 nbThreads t) =
        progression (toUnsigned (sizedOut b.read incr 1 nbThreads t).plower)
          (toUnsigned (sizedOut b.read incr 1 nbThreads t).pupper) incr := rfl
    rw [block] at runs
    have some := within_of_mem runs
    have here := works.only t less (block ▸ first_mem some)
    obtain ⟨j, value, -⟩ := here
    obtain ⟨k, off⟩ := toInt_eq (b.read.plower + 1)
    rw [toUnsigned_eq inside'] at some value
    rw [toUnsigned_eq inside] at some
    rw [← plower] at off
    unfold Within at some
    unfold InInt at *
    rcases sign with ⟨up, nonneg⟩ | ⟨down, negative⟩
    · have one : (j : Int) * incr = 1 := by
        rw [if_neg (by omega)] at back
        split at value <;> omega
      have small := Int.le_of_dvd Int.one_pos (Dvd.intro_left _ one)
      omega
    · have := Int.mul_nonpos_of_nonneg_of_nonpos (Int.natCast_nonneg j) down.le
      rw [if_pos negative] at back
      rw [if_neg (by omega)] at some
      split at value <;> split at some <;> omega

theorem kmpcForStaticInit4u_several (step : incr ≠ 0) (lower : IterType.kmpUint32.Mem b.plower)
    (upper : IterType.kmpUint32.Mem b.pupper) (several : 1 < nbThreads) (small : nbThreads < 256)
    {t : Nat} {chunk : Int} {out : Bounds}
    (computes : kmpcForStaticInit .kmpUint32 .kmpSchStatic nbThreads t b incr chunk = .some out) :
    InInt (b.read.pupper - b.read.plower) ∧
      unsignedSize b.read incr / nbThreads * nbThreads < 2 ^ 31 ∧
      InInt ((sizedOut b.read incr (unsignedSize b.read incr) nbThreads t).plower +
        blockLen (unsignedSize b.read incr) nbThreads t * incr) ∧
      InInt (sizedOut b.read incr (unsignedSize b.read incr) nbThreads t).pupper ∧
      out = sizedBlock b incr (unsignedSize b.read incr) nbThreads t := by
  simp only [kmpcForStaticInit_eq lower upper, Option.map_eq_some_iff,
    kmpcForStaticInit4_several step several small] at computes
  obtain ⟨_, ⟨⟨span, -⟩, full, -, next, last, rfl⟩, same⟩ := computes
  exact ⟨span, full, next, last, same.symm⟩

/-- No team of more than one thread shares out a loop across the middle. -/
theorem not_works_across (step : incr ≠ 0) (incr_in : InInt incr)
    (some : Within incr b.plower b.pupper) (lower : IterType.kmpUint32.Mem b.plower)
    (upper : IterType.kmpUint32.Mem b.pupper)
    (across : ¬(b.read.plower < 0 ↔ b.read.pupper < 0)) (several : 1 < nbThreads)
    (small : nbThreads < 256) (chunk : Int) :
    ¬Works (fun t => kmpcForStaticInit .kmpUint32 .kmpSchStatic nbThreads t b incr chunk)
      .kmpSchStatic nbThreads b incr := by
  rintro ⟨out, computes, works⟩
  have start : InInt b.read.plower := toInt_inInt _
  have stop : InInt b.read.pupper := toInt_inInt _
  have computed := fun t less =>
    kmpcForStaticInit4u_several step lower upper several small (computes t less)
  obtain ⟨span, full, -⟩ := computed 0 (by omega)
  have next := fun t less => (computed t less).2.2.1
  have last := fun t less => (computed t less).2.2.2.1
  have works := works.congr fun t less => (computed t less).2.2.2.2
  have sides := across_cases some step lower upper across
  have sign : 0 < incr ∧ b.read.pupper < b.read.plower ∨
      incr < 0 ∧ b.read.plower < b.read.pupper := by omega
  have size := iterations_across sign
  have distance_le : (b.read.pupper - b.read.plower).natAbs ≤ 2 ^ 31 := by
    unfold InInt at span
    omega
  have quotient_le := Nat.div_le_self (b.read.pupper - b.read.plower).natAbs incr.natAbs
  have split := Nat.mod_add_div (b.read.pupper - b.read.plower).natAbs incr.natAbs
  have rest := Nat.mod_lt (b.read.pupper - b.read.plower).natAbs (show 0 < incr.natAbs by omega)
  generalize quotient : (b.read.pupper - b.read.plower).natAbs / incr.natAbs = q at *
  rcases Nat.lt_or_ge q 2 with few | many
  · have cases : q = 0 ∨ q = 1 := by omega
    rcases cases with rfl | rfl
    · have one : unsignedSize b.read incr = 1 := by
        rw [unsignedSize, size]
        decide
      rw [one] at works last
      refine false_of_one several lower ?_ ?_ ?_ last works
      · unfold Within
        unfold InInt at incr_in
        split <;> omega
      · split <;> omega
      · omega
    · have zero : unsignedSize b.read incr = 0 := by
        rw [unsignedSize, size]
        decide
      rw [zero] at works
      exact false_of_zero several some works
  · have large : unsignedSize b.read incr + q = 2 ^ 32 + 1 := by
      rw [unsignedSize, size]
      unfold toUnsigned
      omega
    rw [← quotient] at large
    have unit := unit_of_full several small large distance_le (by omega) full
    rw [unit, Nat.div_one] at large
    rcases sides with ⟨up, nonneg, -⟩ | ⟨down, negative, nonneg, -⟩
    · have one : incr = 1 := by omega
      subst one
      exact false_of_up start nonneg (by omega) (by omega) next
    · have one : incr = -1 := by omega
      subst one
      unfold InInt at span
      exact false_of_down negative (by omega) several small full next last works

end Across

section Together

variable {b : Bounds} {incr : Int} {nbThreads : Nat}

theorem unsigned_works_iff (step : incr ≠ 0) (incr_in : InInt incr)
    (some : Within incr b.plower b.pupper) (lower : IterType.kmpUint32.Mem b.plower)
    (upper : IterType.kmpUint32.Mem b.pupper) (team : 0 < nbThreads) (small : nbThreads < 256)
    (chunk : Int) :
    Works (fun t => kmpcForStaticInit .kmpUint32 .kmpSchStatic nbThreads t b incr chunk)
      .kmpSchStatic nbThreads b incr ↔ UnsignedStaticFits nbThreads b incr := by
  have start : InInt b.read.plower := toInt_inInt _
  have stop : InInt b.read.pupper := toInt_inInt _
  by_cases half : b.read.plower < 0 ↔ b.read.pupper < 0
  · have some' := within_read lower upper half some
    have idle_iff : IdleSide b.read incr nbThreads ↔ (iterations b.read incr < nbThreads →
        (toInt (b.read.plower + iterations b.read incr) < 0 ↔
          toInt (b.read.plower + iterations b.read incr) - incr < 0)) := by
      unfold IdleSide
      rw [← natCast_count some', Int.ofNat_lt]
    have computes_iff : ∀ t out,
        kmpcForStaticInit .kmpUint32 .kmpSchStatic nbThreads t b incr chunk = .some out ↔
          (InInt (b.read.pupper - b.read.plower) ∧ iterations b.read incr < 2 ^ 31) ∧
            BlockDefined b.read incr nbThreads t ∧ out = unsignedBlock b incr nbThreads t :=
      fun t out => kmpcForStaticInit4u_static step some' lower upper team
    constructor
    · rintro ⟨out, computes, works⟩
      have computed := fun t less => (computes_iff t _).mp (computes t less)
      obtain ⟨⟨span, size⟩, -⟩ := computed 0 team
      have defined := fun t less => (computed t less).2.1
      have works := works.congr fun t less => (computed t less).2.2
      obtain ⟨signed, idle⟩ :=
        (partitions_half_iff step some' lower upper half team small span size defined).mp works
      exact Or.inl ⟨half, staticFits_of_partitions step some' start stop team small span size defined
        signed, idle_iff.mp idle⟩
    · rintro (⟨-, fits, idle⟩ | ⟨-, negative, nonneg, -⟩)
      · have defined := fun t less =>
          fits.defined (t := t) step some' start incr_in small less
        refine ⟨unsignedBlock b incr nbThreads, fun t less => ?_, ?_⟩
        · exact (computes_iff t _).mpr ⟨⟨fits.span, fits.size⟩, defined t less, rfl⟩
        · refine (partitions_half_iff step some' lower upper half team small fits.span fits.size
            defined).mpr ⟨?_, idle_iff.mpr idle⟩
          exact partitions_blocks step some' team (fun t less => fits.lower some' start less)
            fun t less => fits.flag step some' start small less
      · omega
  · rcases Nat.lt_or_ge 1 nbThreads with several | single
    · refine iff_of_false (not_works_across step incr_in some lower upper half several small chunk) ?_
      rintro (⟨same, -⟩ | ⟨single, -⟩)
      · exact half same
      · omega
    · have single : nbThreads = 1 := by omega
      subst single
      rw [single_across_iff step some lower upper half chunk]
      constructor
      · intro fits
        exact Or.inr ⟨rfl, fits⟩
      · rintro (⟨same, -⟩ | ⟨-, fits⟩)
        · exact absurd same half
        · exact fits

/-- The loops that a team shares out. -/
def Fits : IterType → SchedType → Nat → Bounds → Int → Int → Prop
  | .kmpInt32, .kmpSchStatic, nbThreads, b, incr, _ => StaticFits nbThreads b incr
  | .kmpUint32, .kmpSchStatic, nbThreads, b, incr, _ => UnsignedStaticFits nbThreads b incr
  | type, .kmpSchStaticChunked, nbThreads, b, incr, chunk => ChunkedFits type nbThreads b incr chunk
  | _, .other, _, _, _, _ => False

/-- Either function and either schedule share out the loops that fit, and no others. -/
theorem static_init (type : IterType) (sched : SchedType) (known : sched ≠ .other)
    {chunk : Int} (size : sched = .kmpSchStaticChunked → 1 ≤ chunk) (step : incr ≠ 0)
    (incr_in : InInt incr) (lower : type.Mem b.plower) (upper : type.Mem b.pupper)
    (some : Within incr b.plower b.pupper) (team : 0 < nbThreads) (small : nbThreads < 256) :
    Works (fun t => kmpcForStaticInit type sched nbThreads t b incr chunk) sched nbThreads b incr ↔
      Fits type sched nbThreads b incr chunk := by
  cases sched with
  | other => exact absurd rfl known
  | kmpSchStatic =>
    cases type with
    | kmpInt32 => exact static_works_iff step some lower upper incr_in team small chunk
    | kmpUint32 => exact unsigned_works_iff step incr_in some lower upper team small chunk
  | kmpSchStaticChunked =>
    obtain ⟨m, rfl⟩ := Int.eq_ofNat_of_zero_le (Int.le_of_lt (size rfl))
    have positive : 0 < m := by
      have := size rfl
      omega
    have works := chunked_works_iff step some lower upper team positive
    cases type with
    | kmpInt32 => exact works
    | kmpUint32 => exact works

theorem static_init_sixteen :
    Works (fun t => kmpcForStaticInit .kmpInt32 .kmpSchStatic 4 t ⟨false, 0, 15, 0⟩ 1 1) .kmpSchStatic
      4 ⟨false, 0, 15, 0⟩ 1 := by
  refine (static_init .kmpInt32 .kmpSchStatic (by decide) (by decide) (by decide) (by decide)
    ⟨by decide, by decide⟩ ⟨by decide, by decide⟩ (by decide) (by decide) (by decide)).mpr ?_
  exact {
    span := by decide
    size := by decide
    exact := by decide
    stop := by decide
    alone := by decide
    blocks := by decide
    idle := by decide }

/-- Ten iterations in steps of two for four threads: the third starts at ten, which the second
runs too, and none runs eighteen. -/
theorem static_init_steps_of_two :
    ¬Works (fun t => kmpcForStaticInit .kmpInt32 .kmpSchStatic 4 t ⟨false, 0, 18, 0⟩ 2 1)
      .kmpSchStatic 4 ⟨false, 0, 18, 0⟩ 2 := by
  intro works
  have fits := (static_works_iff (by decide) (by decide) (by decide) (by decide) (by decide)
    (by decide) (by decide) 1).mp works
  exact absurd fits.blocks (by decide)

end Together

end SnitchCluster.Runtime.StaticSchedule
