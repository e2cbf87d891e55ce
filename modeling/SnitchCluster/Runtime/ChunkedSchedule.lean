/-
# Runtime.ChunkedSchedule -- chunks in turns

A thread's first chunk and its stride say which chunks are its turn (`turns`).  The
bounds are computed in `int` whatever the type of the loop variable, so an unsigned loop
is shared out as long as no chunk lies across the middle of the range.  The flag compares
the start of the last chunk of the whole range of `int`, counted from zero, with the
thread's own first chunk: this is the loop's last chunk only where the loop starts at a
multiple of the span, and where the division rounds toward the same side.
-/
import Mathlib.Algebra.Ring.Divisibility.Basic
import Mathlib.Data.Int.ModEq
import SnitchCluster.Runtime.StaticSchedule

namespace SnitchCluster.Runtime.StaticSchedule

open Theory

/-- The loops that a team shares out in chunks. -/
structure ChunkedFits (type : IterType) (nbThreads : Nat) (b : Bounds) (incr chunk : Int) :
    Prop where
  span : InInt (b.read.pupper - b.read.plower)
  size : iterations b.read incr < 2 ^ 31
  chunkSpan : InInt (incr * chunk)
  stride : InInt (incr * chunk * nbThreads)
  stop : InInt (b.read.plower + incr * chunk * nbThreads)
  quotient : ¬(b.read.pupper = -2 ^ 31 ∧ incr * chunk = -1)
  first : InInt (b.read.pupper - b.read.pupper.tmod (incr * chunk) - b.read.plower)
  last : InInt (b.read.pupper - b.read.pupper.tmod (incr * chunk) -
    (b.read.plower + incr * chunk * (nbThreads - 1 : Nat)))
  aligned : incr * chunk ∣ b.read.plower
  turn : (nbThreads : Int) ∣ b.read.pupper.tdiv (incr * chunk) - b.read.plower.tdiv (incr * chunk) -
    (b.pupper - b.plower).tdiv (incr * chunk)
  halves : type = .kmpUint32 →
    (b.read.plower + incr * chunk * nbThreads - incr < 0 ↔ b.read.plower < 0) ∨
      (iterations b incr ≤ (nbThreads - 1 : Nat) * chunk ∧
        (b.read.plower + incr * chunk * (nbThreads - 1 : Nat) < 0 ↔ b.read.plower < 0))

section Chunked

variable {type : IterType} {b : Bounds} {incr : Int} {nbThreads m : Nat}

/-- The distance between the chunks of neighbours, for chunks of `m` iterations. -/
def span (incr : Int) (m : Nat) : Int := incr * m

/-- The start of the last chunk, counted from zero. -/
def beginLastChunk (b : Bounds) (incr : Int) (m : Nat) : Int :=
  b.pupper - b.pupper.tmod (span incr m)

/-- The bounds of a thread's chunks. -/
def chunkOut (b : Bounds) (incr : Int) (nbThreads m t : Nat) : Bounds :=
  let plower := toInt (b.plower + span incr m * t)
  { plastiter := (beginLastChunk b incr m - plower).tmod (span incr m * nbThreads) == 0, plower,
    pupper := plower + span incr m - incr, pstride := span incr m * nbThreads }

/-- No signed operation overflows for thread `t`. -/
structure ChunkDefined (b : Bounds) (incr : Int) (nbThreads m t : Nat) : Prop where
  span : InInt (span incr m)
  stride : InInt (StaticSchedule.span incr m * nbThreads)
  next : InInt ((chunkOut b incr nbThreads m t).plower + StaticSchedule.span incr m)
  pupper : InInt (chunkOut b incr nbThreads m t).pupper
  quotient : InInt (b.pupper.tdiv (StaticSchedule.span incr m))
  last : InInt (beginLastChunk b incr m)
  distance : InInt (beginLastChunk b incr m - (chunkOut b incr nbThreads m t).plower)
  turn : InInt ((beginLastChunk b incr m - (chunkOut b incr nbThreads m t).plower).tdiv
    (StaticSchedule.span incr m * nbThreads))

theorem span_ne_zero (step : incr ≠ 0) (size : 0 < m) : span incr m ≠ 0 :=
  Int.mul_ne_zero step (by omega)

theorem kmpcForStaticInit4_chunked (step : incr ≠ 0) (team : 0 < nbThreads) (size : 0 < m) {t : Nat}
    {out : Bounds} :
    kmpcForStaticInit4 .kmpSchStaticChunked nbThreads t b incr m = .some out ↔
      (InInt (b.pupper - b.plower) ∧ iterations b incr < 2 ^ 31) ∧
        ChunkDefined b incr nbThreads m t ∧ out = chunkOut b incr nbThreads m t := by
  have chunk := span_ne_zero step size
  have stride : span incr m * nbThreads ≠ 0 := Int.mul_ne_zero chunk (by omega)
  simp only [kmpcForStaticInit4, staticChunked, Option.bind_eq_bind, Option.bind_eq_some_iff,
    loopSize_eq_some step, int_eq_some, intMod_eq_some, Option.some.injEq]
  constructor
  · rintro ⟨_, ⟨fits, rfl⟩, _, ⟨span, rfl⟩, _, ⟨strides, rfl⟩, _, ⟨next, rfl⟩, _,
      ⟨pupper, rfl⟩, _, ⟨-, quotient, rfl⟩, _, ⟨last, rfl⟩, _, ⟨distance, rfl⟩, _, ⟨-, turn, rfl⟩,
      rfl⟩
    exact ⟨fits, ⟨span, strides, next, pupper, quotient, last, distance, turn⟩, rfl⟩
  · rintro ⟨fits, ⟨span, strides, next, pupper, quotient, last, distance, turn⟩, rfl⟩
    exact ⟨_, ⟨fits, rfl⟩, _, ⟨span, rfl⟩, _, ⟨strides, rfl⟩, _, ⟨next, rfl⟩, _,
      ⟨pupper, rfl⟩, _, ⟨chunk, quotient, rfl⟩, _, ⟨last, rfl⟩, _, ⟨distance, rfl⟩, _,
      ⟨stride, turn, rfl⟩, rfl⟩

/-! ### Turns -/

/-- The iterations of which it is thread `t`'s turn. -/
def turns (b : Bounds) (incr : Int) (nbThreads m t : Nat) : Set Int :=
  {v | ∃ j < count b incr, t = j / m % nbThreads ∧ v = b.plower + j * incr}

/-- A thread that starts at its chunk, if it has one, and stops behind it, runs its turns. -/
theorem executes_turns (step : incr ≠ 0) (some : Within incr b.plower b.pupper) (size : 0 < m)
    {t : Nat} (less : t < nbThreads) {out : Bounds} (stride : out.pstride = span incr m * nbThreads)
    (lower : out.plower = b.plower + span incr m * t)
    (upper : t * m < count b incr → out.pupper = out.plower + span incr m - incr) :
    executes .kmpSchStaticChunked b.pupper incr out = turns b incr nbThreads m t := by
  have index : ∀ k i : Nat, out.plower + k * out.pstride + i * incr =
      b.plower + (((k * nbThreads + t) * m + i : Nat) : Int) * incr := by
    intro k i
    rw [lower, stride]
    unfold span
    push_cast
    ring
  have inside : ∀ k i : Nat, (k * nbThreads + t) * m + i < count b incr →
      (Within incr (out.plower + k * out.pstride + i * incr) (out.pupper + k * out.pstride) ↔
        i < m) := by
    intro k i below
    have more : t * m ≤ (k * nbThreads + t) * m := Nat.mul_le_mul_right m (Nat.le_add_left t _)
    have stop : out.pupper + k * out.pstride =
        out.plower + k * out.pstride + ((m : Int) - 1) * incr := by
      rw [upper (by omega)]
      unfold span
      ring
    rw [stop, within_iff step]
    omega
  ext v
  constructor
  · rintro ⟨k, ⟨i, rfl, here⟩, within⟩
    have below := within
    rw [index, within_iff_lt step some] at below
    rw [inside k i below] at here
    refine ⟨_, below, (turn_iff size less).mp ⟨k, Nat.le_add_right _ _, ?_⟩, index k i⟩
    rw [Nat.add_mul (k * nbThreads + t)]
    omega
  · rintro ⟨j, below, turn, rfl⟩
    obtain ⟨k, low, high⟩ := (turn_iff size less).mpr turn
    rw [Nat.add_mul (k * nbThreads + t)] at high
    have value : (k * nbThreads + t) * m + (j - (k * nbThreads + t) * m) = j :=
      Nat.add_sub_cancel' low
    have same := index k (j - (k * nbThreads + t) * m)
    rw [value] at same
    refine ⟨k, ⟨j - (k * nbThreads + t) * m, same.symm, ?_⟩, (within_iff_lt step some j).mpr below⟩
    rw [← same, inside k _ (by omega)]
    omega

/-- Threads that run their turns share out the loop.  What remains is the flag. -/
theorem partitions_turns (step : incr ≠ 0) (some : Within incr b.plower b.pupper)
    (team : 0 < nbThreads) {out : Nat → Bounds}
    (runs : ∀ t < nbThreads,
      executes .kmpSchStaticChunked b.pupper incr (out t) = turns b incr nbThreads m t) :
    Partitions .kmpSchStaticChunked nbThreads b incr out ↔ ∀ t < nbThreads,
      ((out t).plastiter = true ↔ t = (count b incr - 1) / m % nbThreads) := by
  have positive := count_pos some
  have last : ∀ t, (∃ v ∈ turns b incr nbThreads m t, ¬Within incr (v + incr) b.pupper) ↔
      t = (count b incr - 1) / m % nbThreads := by
    intro t
    constructor
    · rintro ⟨_, ⟨j, below, turn, rfl⟩, last⟩
      rw [is_last_iff step some below] at last
      rw [turn, ← last, Nat.add_sub_cancel]
    · rintro turn
      exact ⟨_, ⟨count b incr - 1, by omega, turn, rfl⟩,
        (is_last_iff step some (by omega)).mpr (by omega)⟩
  constructor
  · intro works t less
    rw [works.last t less, runs t less, last]
  · intro flag
    refine ⟨fun v here => ?_, fun t less v here => ?_, fun t less => ?_⟩
    · obtain ⟨j, below, rfl⟩ := (mem_loop step some).mp here
      refine ⟨j / m % nbThreads, ⟨Nat.mod_lt _ team, ?_⟩, fun t ⟨less, there⟩ => ?_⟩
      · exact (runs _ (Nat.mod_lt _ team)).symm ▸ ⟨j, below, rfl, rfl⟩
      · obtain ⟨j', -, turn, same⟩ := runs t less ▸ there
        rw [add_mul_inj step, Int.natCast_inj] at same
        rw [turn, same]
    · obtain ⟨j, below, -, rfl⟩ := runs t less ▸ here
      exact (mem_loop step some).mpr ⟨j, below, rfl⟩
    · rw [flag t less, runs t less, last]

/-! ### The flag -/

theorem within_span (size : 0 < m) {v bound : Int} :
    Within (span incr m) v bound ↔ Within incr v bound := by
  have same_sign : 0 < span incr m ↔ 0 < incr := by
    unfold span
    constructor
    · intro up
      by_contra down
      have := Int.mul_nonpos_of_nonpos_of_nonneg (Int.not_lt.mp down) (Int.natCast_nonneg m)
      omega
    · intro up
      exact Int.mul_pos up (by omega)
  unfold Within
  rw [if_congr same_sign rfl rfl]

/-- The chunk of the last iteration. -/
theorem last_chunk (step : incr ≠ 0) (some : Within incr b.plower b.pupper) (size : 0 < m) :
    (((count b incr - 1) / m : Nat) : Int) = (b.pupper - b.plower).tdiv (span incr m) := by
  have positive := count_pos some
  have chunk := span_ne_zero step size
  have some' : Within (span incr m) b.plower b.pupper := (within_span size).mpr some
  rw [(quotient_nonneg some').2]
  -- both are the greatest number of chunks within the bound
  have greatest : ∀ x : Nat, (x : Int) ≤ (b.pupper - b.plower).fdiv (span incr m) ↔
      x ≤ (count b incr - 1) / m := by
    intro x
    have value : b.plower + (x : Int) * span incr m = b.plower + ((x * m : Nat) : Int) * incr := by
      unfold span
      push_cast
      ring
    rw [← within_iff_le (a := b.plower) chunk, within_span size, value, within_iff_lt step some,
      Nat.le_div_iff_mul_le size]
    omega
  have nonneg : 0 ≤ (b.pupper - b.plower).fdiv (span incr m) := (greatest 0).mpr (Nat.zero_le _)
  obtain ⟨x, is⟩ := Int.eq_ofNat_of_zero_le nonneg
  have upto := (greatest x).mp (by omega)
  have least := (greatest ((count b incr - 1) / m)).mpr (Nat.le_refl _)
  omega

theorem beginLastChunk_eq : beginLastChunk b incr m = span incr m * b.pupper.tdiv (span incr m) := by
  have := Int.mul_tdiv_add_tmod b.pupper (span incr m)
  unfold beginLastChunk
  omega

/-- What the flag compares. -/
theorem plastiter_iff_dvd {t : Nat}
    (lower : (chunkOut b incr nbThreads m t).plower = b.plower + span incr m * t) :
    (chunkOut b incr nbThreads m t).plastiter = true ↔ span incr m * nbThreads ∣
      span incr m * b.pupper.tdiv (span incr m) - (b.plower + span incr m * t) := by
  rw [Int.dvd_iff_tmod_eq_zero, ← beginLastChunk_eq, ← lower]
  simp [chunkOut]

/-- In chunks, where the loop starts at a multiple of the span. -/
theorem plastiter_iff_aligned (step : incr ≠ 0) (size : 0 < m) {t : Nat}
    (aligned : span incr m ∣ b.plower)
    (lower : (chunkOut b incr nbThreads m t).plower = b.plower + span incr m * t) :
    (chunkOut b incr nbThreads m t).plastiter = true ↔ (nbThreads : Int) ∣
      b.pupper.tdiv (span incr m) - b.plower.tdiv (span incr m) - t := by
  have value : span incr m * b.pupper.tdiv (span incr m) - (b.plower + span incr m * t) =
      span incr m * (b.pupper.tdiv (span incr m) - b.plower.tdiv (span incr m) - t) := by
    have whole := Int.mul_tdiv_cancel' aligned
    linarith
  rw [plastiter_iff_dvd lower, value]
  exact Int.mul_dvd_mul_iff_left (span_ne_zero step size)

theorem dvd_sub_iff {n x t : Nat} (less : t < n) : (n : Int) ∣ (x : Int) - t ↔ t = x % n := by
  rw [← Nat.modEq_iff_dvd, Nat.ModEq, Nat.mod_eq_of_lt less]

/-- The threads' flags are right if and only if the two chunks are in one thread's turn. -/
theorem flags_iff (step : incr ≠ 0) (size : 0 < m) (team : 0 < nbThreads) {last : Nat}
    (lower : ∀ t < nbThreads,
      (chunkOut b incr nbThreads m t).plower = b.plower + span incr m * t) :
    (∀ t < nbThreads, ((chunkOut b incr nbThreads m t).plastiter = true ↔ t = last % nbThreads)) ↔
      span incr m ∣ b.plower ∧ (nbThreads : Int) ∣
        b.pupper.tdiv (span incr m) - b.plower.tdiv (span incr m) - last := by
  have apart : ∀ t : Nat, b.pupper.tdiv (span incr m) - b.plower.tdiv (span incr m) - (t : Int) =
      b.pupper.tdiv (span incr m) - b.plower.tdiv (span incr m) - last + ((last : Int) - t) := by
    intro t
    ring
  constructor
  · intro flags
    have less := Nat.mod_lt last team
    have set := (flags _ less).mpr rfl
    have aligned : span incr m ∣ b.plower := by
      have whole := (Int.dvd_mul_right _ _).trans ((plastiter_iff_dvd (lower _ less)).mp set)
      rw [dvd_sub_right (Int.dvd_mul_right _ _), dvd_add_left (Int.dvd_mul_right _ _)] at whole
      exact whole
    refine ⟨aligned, ?_⟩
    have turn := (plastiter_iff_aligned step size aligned (lower _ less)).mp set
    rw [apart] at turn
    exact (Int.dvd_add_left ((dvd_sub_iff less).mpr rfl)).mp turn
  · rintro ⟨aligned, turn⟩ t less
    rw [plastiter_iff_aligned step size aligned (lower t less), apart, Int.dvd_add_right turn,
      dvd_sub_iff less]

/-! ### Where nothing overflows -/

theorem span_mul (incr : Int) (m k : Nat) : span incr m * k = ((k * m : Nat) : Int) * incr := by
  unfold span
  push_cast
  ring

theorem chunkOut_plower (nbThreads : Nat) {t : Nat} (inside : InInt (b.plower + span incr m * t)) :
    (chunkOut b incr nbThreads m t).plower = b.plower + span incr m * t := toInt_of_inInt inside

/-- From one thread to the next no start is converted to another value. -/
theorem inInt_chunks (lower : InInt b.plower)
    (defined : ∀ t < nbThreads, ChunkDefined b incr nbThreads m t) :
    ∀ t ≤ nbThreads, InInt (b.plower + span incr m * t)
  | 0, _ => by simpa using lower
  | t + 1, le => by
    have here := inInt_chunks lower defined t (by omega)
    have next := (defined t le).next
    rw [chunkOut_plower nbThreads here] at next
    push_cast
    rw [Int.mul_add, Int.mul_one, ← Int.add_assoc]
    exact next

/-- The last chunk of the range is not beyond the loop's bound. -/
theorem inInt_beginLastChunk (upper : InInt b.pupper) : InInt (beginLastChunk b incr m) := by
  unfold beginLastChunk InInt at *
  have le : (b.pupper.tmod (span incr m)).natAbs ≤ b.pupper.natAbs := by
    rw [Int.natAbs_tmod]
    exact Nat.mod_le _ _
  rcases Int.le_total 0 b.pupper with up | down
  · have nonneg := Int.tmod_nonneg (span incr m) up
    omega
  · have nonneg := Int.tmod_nonneg (span incr m) (Int.neg_nonneg_of_nonpos down)
    rw [Int.neg_tmod] at nonneg
    omega

/-- The values on which no operation overflows for any thread. -/
structure ChunksDefined (b : Bounds) (incr : Int) (nbThreads m : Nat) : Prop where
  span : InInt (span incr m)
  stride : InInt (StaticSchedule.span incr m * nbThreads)
  stop : InInt (b.plower + StaticSchedule.span incr m * nbThreads)
  quotient : ¬(b.pupper = -2 ^ 31 ∧ StaticSchedule.span incr m = -1)
  first : InInt (beginLastChunk b incr m - b.plower)
  last : InInt (beginLastChunk b incr m -
    (b.plower + StaticSchedule.span incr m * (nbThreads - 1 : Nat)))

theorem chunkDefined_iff (step : incr ≠ 0) (size : 0 < m) (team : 0 < nbThreads)
    (lower : InInt b.plower) (upper : InInt b.pupper) (few : iterations b incr < 2 ^ 31) :
    (∀ t < nbThreads, ChunkDefined b incr nbThreads m t) ↔ ChunksDefined b incr nbThreads m := by
  have chunk := span_ne_zero step size
  constructor
  · intro defined
    have chunks := inInt_chunks lower defined
    have start := chunkOut_plower nbThreads (chunks 0 (Nat.zero_le _))
    have start' := chunkOut_plower nbThreads (chunks (nbThreads - 1) (by omega))
    have first := (defined 0 team).distance
    have last := (defined (nbThreads - 1) (by omega)).distance
    rw [start, Nat.cast_zero, Int.mul_zero, Int.add_zero] at first
    rw [start'] at last
    exact ⟨(defined 0 team).span, (defined 0 team).stride, chunks nbThreads (Nat.le_refl _),
      (inInt_tdiv upper chunk).mp (defined 0 team).quotient, first, last⟩
  · intro fits t less
    have stop : InInt (b.plower + ((nbThreads * m : Nat) : Int) * incr) :=
      span_mul incr m nbThreads ▸ fits.stop
    have here : (chunkOut b incr nbThreads m t).plower = b.plower + span incr m * t := by
      refine chunkOut_plower nbThreads ?_
      rw [span_mul]
      exact inInt_between lower stop (Nat.mul_le_mul_right m less.le)
    have below : (t + 1) * m ≤ nbThreads * m := Nat.mul_le_mul_right m less
    rw [Nat.add_mul, Nat.one_mul] at below
    have distance : InInt (beginLastChunk b incr m - (chunkOut b incr nbThreads m t).plower) := by
      have last : InInt (beginLastChunk b incr m - b.plower +
          ((nbThreads - 1 : Nat) : Int) * -span incr m) := by
        convert fits.last using 1
        ring
      rw [here]
      convert inInt_between fits.first last (i := t) (by omega) using 1
      ring
    refine ⟨fits.span, fits.stride, ?_, ?_, ?_, inInt_beginLastChunk upper, distance, ?_⟩
    · rw [here]
      convert inInt_between lower stop below using 1
      unfold span
      push_cast
      ring
    · have same : (chunkOut b incr nbThreads m t).pupper =
          (chunkOut b incr nbThreads m t).plower + span incr m - incr := rfl
      rw [same, here]
      convert inInt_between lower stop (i := t * m + (m - 1)) (by omega) using 1
      unfold span
      push_cast [Int.ofNat_sub size]
      ring
    · exact (inInt_tdiv upper chunk).mpr fits.quotient
    · rw [inInt_tdiv distance (Int.mul_ne_zero chunk (by omega))]
      rintro ⟨far, unit⟩
      -- one thread counting down by one, from the top of the range to its bottom
      have single : nbThreads = 1 ∧ span incr m = -1 := by
        have units := congrArg Int.natAbs unit
        rw [Int.natAbs_mul, Int.natAbs_natCast] at units
        have one := Nat.eq_one_of_mul_eq_one_left units
        rw [one] at unit
        exact ⟨one, by simpa using unit⟩
      have unit' : incr = -1 := by
        have units := congrArg Int.natAbs single.2
        unfold span at units
        rw [Int.natAbs_mul, Int.natAbs_natCast] at units
        have one := Nat.eq_one_of_mul_eq_one_left units
        have value := single.2
        unfold span at value
        rw [one] at value
        simpa using value
      have all : beginLastChunk b incr m = b.pupper := by
        unfold beginLastChunk
        rw [single.2, Int.tmod_neg, Int.tmod_one, Int.sub_zero]
      have none : t = 0 := by omega
      rw [here, all, none, Nat.cast_zero, Int.mul_zero, Int.add_zero] at far
      unfold iterations at few
      rw [far, unit'] at few
      exact absurd few (by decide)

/-! ### The two halves of the range -/

/-- The bounds that thread `t` gets. -/
def chunkBounds (type : IterType) (b : Bounds) (incr : Int) (nbThreads m t : Nat) : Bounds :=
  (chunkOut b.read incr nbThreads m t).ofInt type

theorem chunks_plower (defined : ChunksDefined b.read incr nbThreads m) {t : Nat}
    (less : t < nbThreads) : (chunkOut b.read incr nbThreads m t).plower =
      toInt b.plower + span incr m * t := by
  have stop : InInt (toInt b.plower + ((nbThreads * m : Nat) : Int) * incr) :=
    span_mul incr m nbThreads ▸ defined.stop
  refine chunkOut_plower (b := b.read) nbThreads ?_
  have same : b.read.plower = toInt b.plower := rfl
  rw [same, span_mul]
  exact inInt_between (toInt_inInt _) stop (Nat.mul_le_mul_right m less.le)

/-- The first chunk of thread `t` ends before the next thread's starts. -/
theorem chunk_stop (a : Int) (size : 0 < m) (t : Nat) :
    a + span incr m * t + span incr m - incr = a + ((t * m + (m - 1) : Nat) : Int) * incr := by
  unfold span
  push_cast [Int.ofNat_sub size]
  ring

/-- A thread whose first chunk is on one side runs its turns. -/
theorem chunkBounds_turns (step : incr ≠ 0) (some : Within incr b.plower b.pupper) (size : 0 < m)
    (lower : type.Mem b.plower) (defined : ChunksDefined b.read incr nbThreads m) {t : Nat}
    (less : t < nbThreads)
    (start : type = .kmpUint32 → (toInt b.plower + span incr m * t < 0 ↔ toInt b.plower < 0))
    (stop : type = .kmpUint32 → t * m < count b incr →
      (toInt b.plower + span incr m * t + span incr m - incr < 0 ↔ toInt b.plower < 0)) :
    executes .kmpSchStaticChunked b.pupper incr (chunkBounds type b incr nbThreads m t) =
      turns b incr nbThreads m t := by
  have range : InInt (toInt b.plower + ((nbThreads * m : Nat) : Int) * incr) :=
    span_mul incr m nbThreads ▸ defined.stop
  have inside : InInt (toInt b.plower + span incr m * t) := by
    rw [span_mul]
    exact inInt_between (toInt_inInt _) range (Nat.mul_le_mul_right m less.le)
  have first : (chunkBounds type b incr nbThreads m t).plower = b.plower + span incr m * t := by
    have same : (chunkBounds type b incr nbThreads m t).plower =
      type.ofInt (chunkOut b.read incr nbThreads m t).plower := rfl
    rw [same, chunks_plower defined less, IterType.ofInt_of_half lower start inside]
    ring
  refine executes_turns step some size less rfl first fun some_chunk => ?_
  have same : (chunkBounds type b incr nbThreads m t).pupper =
    type.ofInt ((chunkOut b.read incr nbThreads m t).plower + span incr m - incr) := rfl
  have below : (t + 1) * m ≤ nbThreads * m := Nat.mul_le_mul_right m less
  rw [Nat.add_mul, Nat.one_mul] at below
  have inside' : InInt (toInt b.plower + span incr m * t + span incr m - incr) := by
    rw [chunk_stop _ size]
    exact inInt_between (toInt_inInt _) range (by omega)
  rw [same, first, chunks_plower defined less,
    IterType.ofInt_of_half lower (fun unsigned => stop unsigned some_chunk) inside']
  ring

/-- No thread has a chunk on both sides, and none has only a chunk that the loop does not
reach on the other side. -/
def OneSide (b : Bounds) (incr : Int) (nbThreads m : Nat) : Prop :=
  (toInt b.plower + span incr m * nbThreads - incr < 0 ↔ toInt b.plower < 0) ∨
    (count b incr ≤ (nbThreads - 1) * m ∧
      (toInt b.plower + span incr m * (nbThreads - 1 : Nat) < 0 ↔ toInt b.plower < 0))

theorem executes_of_oneSide (step : incr ≠ 0) (some : Within incr b.plower b.pupper) (size : 0 < m)
    (lower : type.Mem b.plower) (defined : ChunksDefined b.read incr nbThreads m)
    (halves : type = .kmpUint32 → OneSide b incr nbThreads m) {t : Nat} (less : t < nbThreads) :
    executes .kmpSchStaticChunked b.pupper incr (chunkBounds type b incr nbThreads m t) =
      turns b incr nbThreads m t := by
  have below : (t + 1) * m ≤ nbThreads * m := Nat.mul_le_mul_right m less
  rw [Nat.add_mul, Nat.one_mul] at below
  refine chunkBounds_turns step some size lower defined less (fun unsigned => ?_)
    fun unsigned some_chunk => ?_
  · rw [span_mul]
    rcases halves unsigned with all | ⟨-, idle⟩
    · have value : toInt b.plower + span incr m * nbThreads - incr =
          toInt b.plower + ((nbThreads * m - 1 : Nat) : Int) * incr := by
        rw [span_mul, Int.ofNat_sub (by omega)]
        ring
      rw [value] at all
      exact half_between all (by omega)
    · rw [span_mul] at idle
      exact half_between idle (Nat.mul_le_mul_right m (by omega))
  · rw [chunk_stop _ size]
    rcases halves unsigned with all | ⟨few, idle⟩
    · have value : toInt b.plower + span incr m * nbThreads - incr =
          toInt b.plower + ((nbThreads * m - 1 : Nat) : Int) * incr := by
        rw [span_mul, Int.ofNat_sub (by omega)]
        ring
      rw [value] at all
      exact half_between all (by omega)
    · rw [span_mul] at idle
      have before : t + 1 ≤ nbThreads - 1 := by
        by_contra after
        have last : t = nbThreads - 1 := by omega
        subst last
        omega
      have next := Nat.mul_le_mul_right m before
      rw [Nat.add_mul, Nat.one_mul] at next
      exact half_between idle (by omega)

/-- The first value of a thread's first chunk, if the chunk is not empty and not past the
bound. -/
theorem first_mem_executes {out : Bounds} {upper : Int} (some : Within incr out.plower out.pupper)
    (within : Within incr out.plower upper) :
    out.plower ∈ executes .kmpSchStaticChunked upper incr out :=
  ⟨0, by simpa using first_mem some, within⟩

/-- A chunk on both sides is empty. -/
theorem executes_of_empty {out : Bounds} {upper : Int}
    (empty : ¬Within incr out.plower out.pupper) :
    executes .kmpSchStaticChunked upper incr out = ∅ := by
  refine Set.eq_empty_of_forall_notMem fun v ⟨k, chunk, _⟩ => empty ?_
  have some := within_of_mem chunk
  rwa [← within_move, Int.add_sub_cancel] at some

theorem toUnsigned_eq {x : Int} (inside : InInt x) :
    toUnsigned x = if x < 0 then x + 2 ^ 32 else x := by
  unfold InInt at inside
  unfold toUnsigned
  split <;> omega

/-- The last chunk, its bounds on either side. -/
theorem last_bounds (size : 0 < m) (team : 0 < nbThreads) (lower : IterType.kmpUint32.Mem b.plower)
    (defined : ChunksDefined b.read incr nbThreads m) :
    let low := toInt b.plower + span incr m * (nbThreads - 1 : Nat)
    let high := low + span incr m - incr
    let out := chunkBounds .kmpUint32 b incr nbThreads m (nbThreads - 1)
    InInt (toInt b.plower) ∧ InInt low ∧ InInt high ∧
      (if toInt b.plower < 0 then toInt b.plower + 2 ^ 32 else toInt b.plower) = b.plower ∧
      out.plower = (if low < 0 then low + 2 ^ 32 else low) ∧
      out.pupper = (if high < 0 then high + 2 ^ 32 else high) ∧
      span incr m - incr = ((m - 1 : Nat) : Int) * incr := by
  have less : nbThreads - 1 < nbThreads := by omega
  have value := chunks_plower defined less
  have start := toInt_inInt b.plower
  have inside : InInt (toInt b.plower + span incr m * (nbThreads - 1 : Nat)) :=
    value ▸ toInt_inInt _
  have stop : InInt (toInt b.plower + span incr m * (nbThreads - 1 : Nat) + span incr m - incr) := by
    have range : InInt (toInt b.plower + ((nbThreads * m : Nat) : Int) * incr) :=
      span_mul incr m nbThreads ▸ defined.stop
    have below : (nbThreads - 1 + 1) * m ≤ nbThreads * m := Nat.mul_le_mul_right m less
    rw [Nat.add_mul, Nat.one_mul] at below
    rw [chunk_stop _ size]
    exact inInt_between start range (by omega)
  refine ⟨start, inside, stop, ?_, ?_, ?_, ?_⟩
  · rw [← toUnsigned_eq start]
    exact IterType.ofInt_toInt lower
  · rw [← toUnsigned_eq inside, ← value]
    rfl
  · rw [← toUnsigned_eq stop, ← value]
    rfl
  · unfold span
    rw [Int.ofNat_sub size]
    ring

section

variable (step : incr ≠ 0) (some : Within incr b.plower b.pupper) (size : 0 < m)
    (team : 0 < nbThreads) (lower : IterType.kmpUint32.Mem b.plower)

include step some size team lower

/-- A last chunk that the loop does not reach is not on the other side. -/
theorem idle_side (defined : ChunksDefined b.read incr nbThreads m)
    (works : Partitions .kmpSchStaticChunked nbThreads b incr
      (chunkBounds .kmpUint32 b incr nbThreads m)) :
    toInt b.plower + span incr m * (nbThreads - 1 : Nat) < 0 ↔ toInt b.plower < 0 := by
  have less : nbThreads - 1 < nbThreads := by omega
  obtain ⟨start, inside, stop, back, plower, pupper, chunk⟩ := last_bounds size team lower defined
  have shift := span_mul incr m (nbThreads - 1)
  have count_nonneg := Int.natCast_nonneg ((nbThreads - 1) * m)
  have len_nonneg := Int.natCast_nonneg (m - 1)
  by_contra apart
  rcases lt_or_gt_of_ne step with down | up
  · have ahead := Int.mul_nonpos_of_nonneg_of_nonpos count_nonneg down.le
    have ahead' := Int.mul_nonpos_of_nonneg_of_nonpos len_nonneg down.le
    have sides : toInt b.plower + span incr m * (nbThreads - 1 : Nat) < 0 ∧ 0 ≤ toInt b.plower := by
      omega
    rw [if_pos sides.1] at plower
    rw [if_pos (by omega)] at pupper
    rw [if_neg (by omega)] at back
    unfold Within at some
    rw [if_neg (by omega)] at some
    unfold InInt at start inside
    have here := works.only _ less (first_mem_executes
      (by unfold Within; rw [if_neg (by omega), plower, pupper]; omega)
      (by unfold Within; rw [if_neg (by omega), plower]; omega))
    obtain ⟨j, value, -⟩ := here
    have := Int.mul_nonpos_of_nonneg_of_nonpos (Int.natCast_nonneg j) down.le
    omega
  · have ahead := Int.mul_nonneg count_nonneg up.le
    have ahead' := Int.mul_nonneg len_nonneg up.le
    have sides : toInt b.plower < 0 ∧ 0 ≤ toInt b.plower + span incr m * (nbThreads - 1 : Nat) := by
      omega
    rw [if_neg (by omega)] at plower
    rw [if_neg (by omega)] at pupper
    rw [if_pos sides.1] at back
    unfold Within at some
    rw [if_pos up] at some
    unfold InInt at start inside
    have here := works.only _ less (first_mem_executes
      (by unfold Within; rw [if_pos up, plower, pupper]; omega)
      (by unfold Within; rw [if_pos up, plower]; omega))
    obtain ⟨j, value, -⟩ := here
    have := Int.mul_nonneg (Int.natCast_nonneg j) up.le
    omega

/-- A last chunk that the loop reaches is on one side: no other thread runs its first
value, and on two sides the thread itself would run nothing. -/
theorem busy_side
    (upper : IterType.kmpUint32.Mem b.pupper) (defined : ChunksDefined b.read incr nbThreads m)
    (reached : (nbThreads - 1) * m < count b incr)
    (works : Partitions .kmpSchStaticChunked nbThreads b incr
      (chunkBounds .kmpUint32 b incr nbThreads m)) :
    toInt b.plower + span incr m * (nbThreads - 1 : Nat) + span incr m - incr < 0 ↔
      toInt b.plower < 0 := by
  have less : nbThreads - 1 < nbThreads := by omega
  obtain ⟨start, inside, stop, back, plower, pupper, chunk⟩ := last_bounds size team lower defined
  have shift := span_mul incr m (nbThreads - 1)
  have count_nonneg := Int.natCast_nonneg ((nbThreads - 1) * m)
  have len_nonneg := Int.natCast_nonneg (m - 1)
  have here := (within_iff_lt step some _).mpr reached
  -- the chunk's first value is run by a thread before
  obtain ⟨t, ⟨t_less, runs⟩, -⟩ := works.once _ ((mem_loop step some).mpr ⟨_, reached, rfl⟩)
  by_contra apart
  have nothing : executes .kmpSchStaticChunked b.pupper incr
      (chunkBounds .kmpUint32 b incr nbThreads m (nbThreads - 1)) = ∅ := by
    refine executes_of_empty ?_
    unfold Within at *
    rcases lt_or_gt_of_ne step with down | up
    · have ahead := Int.mul_nonpos_of_nonneg_of_nonpos count_nonneg down.le
      have ahead' := Int.mul_nonpos_of_nonneg_of_nonpos len_nonneg down.le
      rw [if_neg (by omega)] at here
      have unsigned := upper.1
      rw [if_neg (by omega)] at plower
      rw [if_pos (by omega)] at pupper
      rw [if_neg (by omega), plower, pupper]
      unfold InInt at *
      omega
    · have ahead := Int.mul_nonneg count_nonneg up.le
      have ahead' := Int.mul_nonneg len_nonneg up.le
      rw [if_pos up] at here
      have unsigned := upper.2
      rw [if_pos (by omega)] at plower
      rw [if_neg (by omega)] at pupper
      rw [if_pos up, plower, pupper]
      unfold InInt at *
      omega
  have before : t < nbThreads - 1 := by
    refine lt_of_le_of_ne (by omega) fun last => ?_
    rw [last, nothing] at runs
    exact runs
  have sides : ∀ i : Nat, i ≤ (nbThreads - 1) * m →
      (toInt b.plower + (i : Int) * incr < 0 ↔ toInt b.plower < 0) := by
    intro i le
    refine half_between ?_ le
    unfold Within at *
    rcases lt_or_gt_of_ne step with down | up
    · have ahead := Int.mul_nonpos_of_nonneg_of_nonpos count_nonneg down.le
      have ahead' := Int.mul_nonpos_of_nonneg_of_nonpos len_nonneg down.le
      rw [if_neg (by omega)] at here
      have unsigned := upper.1
      omega
    · have ahead := Int.mul_nonneg count_nonneg up.le
      have ahead' := Int.mul_nonneg len_nonneg up.le
      rw [if_pos up] at here
      have unsigned := upper.2
      omega
  have next := Nat.mul_le_mul_right m (show t + 1 ≤ nbThreads - 1 from before)
  rw [Nat.add_mul, Nat.one_mul] at next
  rw [chunkBounds_turns step some size lower defined t_less
    (fun _ => by rw [span_mul]; exact sides _ (by omega))
    (fun _ _ => by rw [chunk_stop _ size]; exact sides _ (by omega))] at runs
  obtain ⟨j, -, turn, value⟩ := runs
  rw [add_mul_inj step, Int.natCast_inj] at value
  rw [← value, Nat.mul_div_cancel _ size, Nat.mod_eq_of_lt less] at turn
  omega

theorem oneSide_of_partitions
    (upper : IterType.kmpUint32.Mem b.pupper) (defined : ChunksDefined b.read incr nbThreads m)
    (works : Partitions .kmpSchStaticChunked nbThreads b incr
      (chunkBounds .kmpUint32 b incr nbThreads m)) : OneSide b incr nbThreads m := by
  rcases Nat.lt_or_ge ((nbThreads - 1) * m) (count b incr) with reached | few
  · refine Or.inl ?_
    have last := busy_side step some size team lower upper defined reached works
    have value : span incr m * nbThreads = span incr m * (nbThreads - 1 : Nat) + span incr m := by
      rw [Int.ofNat_sub team]
      push_cast
      ring
    rw [value, ← Int.add_assoc]
    exact last
  · exact Or.inr ⟨few, idle_side step some size team lower defined works⟩

end

/-! ### Together -/

theorem oneSide_iff (some : Within incr b.plower b.pupper) : OneSide b incr nbThreads m ↔
    (b.read.plower + incr * m * nbThreads - incr < 0 ↔ b.read.plower < 0) ∨
      (iterations b incr ≤ (nbThreads - 1 : Nat) * m ∧
        (b.read.plower + incr * m * (nbThreads - 1 : Nat) < 0 ↔ b.read.plower < 0)) := by
  have total := natCast_count some
  have few : count b incr ≤ (nbThreads - 1) * m ↔ iterations b incr ≤ (nbThreads - 1 : Nat) * m := by
    rw [← total]
    exact_mod_cast Iff.rfl
  unfold OneSide
  rw [few]
  exact Iff.rfl

theorem chunked_works_iff (step : incr ≠ 0) (some : Within incr b.plower b.pupper)
    (lower : type.Mem b.plower) (upper : type.Mem b.pupper) (team : 0 < nbThreads) (size : 0 < m) :
    Works (fun t => kmpcForStaticInit type .kmpSchStaticChunked nbThreads t b incr m)
      .kmpSchStaticChunked nbThreads b incr ↔ ChunkedFits type nbThreads b incr m := by
  have lower_in : InInt b.read.plower := toInt_inInt _
  have upper_in : InInt b.read.pupper := toInt_inInt _
  have computes_iff : ∀ t out, kmpcForStaticInit type .kmpSchStaticChunked nbThreads t b incr m =
      .some out ↔ (InInt (b.read.pupper - b.read.plower) ∧ iterations b.read incr < 2 ^ 31) ∧
        ChunkDefined b.read incr nbThreads m t ∧ out = chunkBounds type b incr nbThreads m t := by
    intro t out
    simp only [kmpcForStaticInit_eq lower upper, Option.map_eq_some_iff,
      kmpcForStaticInit4_chunked step team size]
    constructor
    · rintro ⟨_, ⟨fits, defined, rfl⟩, rfl⟩
      exact ⟨fits, defined, rfl⟩
    · rintro ⟨fits, defined, rfl⟩
      exact ⟨_, ⟨fits, defined, rfl⟩, rfl⟩
  -- the flag of thread `t` does not depend on the type of the loop variable
  have flags : ChunksDefined b.read incr nbThreads m →
      ((∀ t < nbThreads, ((chunkBounds type b incr nbThreads m t).plastiter = true ↔
        t = (count b incr - 1) / m % nbThreads)) ↔ span incr m ∣ b.read.plower ∧
          (nbThreads : Int) ∣ b.read.pupper.tdiv (span incr m) - b.read.plower.tdiv (span incr m) -
            (b.pupper - b.plower).tdiv (span incr m)) := by
    intro defined
    rw [← last_chunk step some size]
    exact flags_iff step size team fun t less => chunks_plower defined less
  constructor
  · rintro ⟨out, computes, works⟩
    have computed := fun t less => (computes_iff t _).mp (computes t less)
    obtain ⟨⟨distance, few⟩, -⟩ := computed 0 team
    have works := works.congr fun t less => (computed t less).2.2
    have defined := (chunkDefined_iff step size team lower_in upper_in few).mp
      fun t less => (computed t less).2.1
    have halves : type = .kmpUint32 → OneSide b incr nbThreads m := by
      rintro rfl
      exact oneSide_of_partitions step some size team lower upper defined works
    have runs := fun t less => executes_of_oneSide (t := t) step some size lower defined halves less
    obtain ⟨aligned, turn⟩ := (flags defined).mp ((partitions_turns step some team runs).mp works)
    exact {
      span := distance
      size := few
      chunkSpan := defined.span
      stride := defined.stride
      stop := defined.stop
      quotient := defined.quotient
      first := defined.first
      last := defined.last
      aligned
      turn
      halves := fun unsigned => (oneSide_iff some).mp (halves unsigned) }
  · intro fits
    have defined : ChunksDefined b.read incr nbThreads m :=
      ⟨fits.chunkSpan, fits.stride, fits.stop, fits.quotient, fits.first, fits.last⟩
    have halves := fun unsigned => (oneSide_iff some).mpr (fits.halves unsigned)
    have runs := fun t less => executes_of_oneSide (t := t) step some size lower defined halves less
    refine ⟨chunkBounds type b incr nbThreads m, fun t less => ?_, ?_⟩
    · exact (computes_iff t _).mpr ⟨⟨fits.span, fits.size⟩,
        (chunkDefined_iff step size team lower_in upper_in fits.size).mpr defined t less, rfl⟩
    · exact (partitions_turns step some team runs).mpr
        ((flags defined).mpr ⟨fits.aligned, fits.turn⟩)

end Chunked

end SnitchCluster.Runtime.StaticSchedule
