/-
# Runtime.StaticSchedule -- how a team shares a statically scheduled loop

`__kmpc_for_static_init_4` computes the part of a loop that one thread of the team
runs: a block of its own, or chunks in turns.  The computation is in C's `int`, where an
overflow is undefined, with some of the products in `unsigned`; both are modelled by
integers, `none` where the code has no meaning.

`Partitions` says what the threads together should do, and `Works` that the function
computes bounds with which they do.  `StaticFits` are exactly the signed loops that a
team shares out in blocks (`static_works_iff`): besides the overflows, a block schedule
goes wrong where a remainder meets an increment other than one, and the flag compares
with a bound that the last iteration need not hit.
-/
import SnitchCluster.Theory.Progression

namespace SnitchCluster.Runtime.StaticSchedule

open Theory

/-! ## The arithmetic of C -/

/-- A value of type `int`. -/
def InInt (x : Int) : Prop := -2 ^ 31 ≤ x ∧ x < 2 ^ 31

instance (x : Int) : Decidable (InInt x) := instDecidableAnd

/-- The result of a signed operation, undefined on overflow. -/
def int (x : Int) : Option Int := if InInt x then some x else none

/-- Signed division. -/
def intDiv (x y : Int) : Option Int := if y = 0 then none else int (x.tdiv y)

/-- The signed remainder, undefined where the quotient is. -/
def intMod (x y : Int) : Option Int := (intDiv x y).map fun _ => x.tmod y

/-- Conversion to `int`. -/
def toInt (x : Int) : Int := x.bmod (2 ^ 32)

/-- Conversion to `unsigned`. -/
def toUnsigned (x : Int) : Int := x % 2 ^ 32

/-! ## The functions -/

/-- What the caller passes and gets back through pointers. -/
structure Bounds where
  plastiter : Bool
  plower : Int
  pupper : Int
  pstride : Int
  deriving DecidableEq, Repr

inductive SchedType
  | kmpSchStaticChunked
  | kmpSchStatic
  | other
  deriving DecidableEq, Repr

/-- The iterations of the loop, as an `unsigned`. -/
def loopSize (plower pupper incr : Int) : Option Int := do
  let span ← int (pupper - plower)
  let quotient ← intDiv span incr
  let size ← int (quotient + 1)
  some (toUnsigned size)

/-- `kmp_sch_static_chunked`. -/
def staticChunked (nbThreads threadNum : Nat) (b : Bounds) (incr chunk : Int) : Option Bounds := do
  let globalUpper := b.pupper
  let span ← int (incr * chunk)
  let pstride ← int (span * nbThreads)
  let plower := toInt (b.plower + span * threadNum)
  let next ← int (plower + span)
  let pupper ← int (next - incr)
  let rest ← intMod globalUpper span
  let beginLastChunk ← int (globalUpper - rest)
  let distance ← int (beginLastChunk - plower)
  let turn ← intMod distance pstride
  some { plastiter := turn == 0, plower, pupper, pstride }

/-- The precise chunk size and the lower bound of a thread. -/
def preciseChunk (threadNum : Nat) (plower incr chunk leftOver : Int) : Option (Int × Int) :=
  if threadNum < leftOver then
    (int (chunk + 1)).map fun chunk => (chunk, toInt (plower + threadNum * chunk * incr))
  else some (chunk, toInt (plower + threadNum * chunk * incr + leftOver))

/-- `kmp_sch_static`. -/
def static (nbThreads threadNum : Nat) (b : Bounds) (incr loopSize : Int) : Option Bounds := do
  let globalUpper := b.pupper
  let chunk := toInt (loopSize / nbThreads)
  let full ← int (chunk * nbThreads)
  let leftOver := toInt (loopSize - full)
  let (chunk, plower) ← preciseChunk threadNum b.plower incr chunk leftOver
  let steps ← int (chunk * incr)
  let next ← int (plower + steps)
  let pupper ← int (next - incr)
  some { plastiter := pupper == globalUpper && decide (plower ≤ globalUpper), plower, pupper,
         pstride := toInt loopSize }

/-- The size of the team is a `char`. -/
def kmpcForStaticInit4 (sched : SchedType) (nbThreads threadNum : Nat) (b : Bounds)
    (incr chunk : Int) : Option Bounds := do
  let loopSize ← loopSize b.plower b.pupper incr
  match sched with
  | .kmpSchStaticChunked => staticChunked nbThreads threadNum b incr chunk
  | .kmpSchStatic => static nbThreads threadNum b incr loopSize
  | .other => some b

/-- The bounds as the signed function reads them. -/
def Bounds.read (b : Bounds) : Bounds :=
  { b with plower := toInt b.plower, pupper := toInt b.pupper }

/-- The unsigned variant. -/
def kmpcForStaticInit4u (sched : SchedType) (nbThreads threadNum : Nat) (b : Bounds)
    (incr chunk : Int) : Option Bounds := do
  let out ← kmpcForStaticInit4 sched nbThreads threadNum b.read incr chunk
  some { out with plower := toUnsigned out.plower, pupper := toUnsigned out.pupper }

/-- The types of the loop variable. -/
inductive IterType
  | kmpInt32
  | kmpUint32
  deriving DecidableEq, Repr

def IterType.Mem : IterType → Int → Prop
  | .kmpInt32, x => InInt x
  | .kmpUint32, x => 0 ≤ x ∧ x < 2 ^ 32

def IterType.ofInt : IterType → Int → Int
  | .kmpInt32, x => x
  | .kmpUint32, x => toUnsigned x

/-- The function that the compiler calls for a loop variable of the type. -/
def kmpcForStaticInit : IterType → SchedType → Nat → Nat → Bounds → Int → Int → Option Bounds
  | .kmpInt32 => kmpcForStaticInit4
  | .kmpUint32 => kmpcForStaticInit4u

/-- The bounds as the caller gets them back. -/
def Bounds.ofInt (type : IterType) (b : Bounds) : Bounds :=
  { b with plower := type.ofInt b.plower, pupper := type.ofInt b.pupper }

/-! ## What the threads do -/

/-- What a thread runs with the bounds it gets: one block, or chunks of which it is the
turn, up to the end of the loop. -/
def executes (sched : SchedType) (globalUpper incr : Int) (b : Bounds) : Set Int :=
  match sched with
  | .kmpSchStaticChunked => {v | ∃ k : Nat, v ∈ progression (b.plower + k * b.pstride)
      (b.pupper + k * b.pstride) incr ∧ Within incr v globalUpper}
  | .kmpSchStatic | .other => progression b.plower b.pupper incr

/-- Every iteration of the loop is run by one thread, nothing else is, and the flag is set
for the thread that runs the last one. -/
structure Partitions (sched : SchedType) (nbThreads : Nat) (b : Bounds) (incr : Int)
    (out : Nat → Bounds) : Prop where
  once : ∀ v ∈ progression b.plower b.pupper incr,
    ∃! t, t < nbThreads ∧ v ∈ executes sched b.pupper incr (out t)
  only : ∀ t < nbThreads,
    executes sched b.pupper incr (out t) ⊆ progression b.plower b.pupper incr
  last : ∀ t < nbThreads, (out t).plastiter = true ↔
    ∃ v ∈ executes sched b.pupper incr (out t), ¬Within incr (v + incr) b.pupper

/-- Only the bounds of the team matter. -/
theorem Partitions.congr {sched : SchedType} {nbThreads : Nat} {b : Bounds} {incr : Int}
    {out out' : Nat → Bounds} (works : Partitions sched nbThreads b incr out)
    (same : ∀ t < nbThreads, out t = out' t) : Partitions sched nbThreads b incr out' where
  once v here := by
    obtain ⟨t, ⟨less, runs⟩, unique⟩ := works.once v here
    refine ⟨t, ⟨less, same t less ▸ runs⟩, fun t' ⟨less', runs'⟩ => ?_⟩
    exact unique t' ⟨less', (same t' less').symm ▸ runs'⟩
  only t less := same t less ▸ works.only t less
  last t less := same t less ▸ works.last t less

/-- A team of some function that computes the bounds. -/
def Works (init : Nat → Option Bounds) (sched : SchedType) (nbThreads : Nat) (b : Bounds)
    (incr : Int) : Prop :=
  ∃ out : Nat → Bounds, (∀ t < nbThreads, init t = some (out t)) ∧
    Partitions sched nbThreads b incr out

/-- The number of iterations. -/
def iterations (b : Bounds) (incr : Int) : Int := (b.pupper - b.plower).tdiv incr + 1

/-- The loops that a team shares out in blocks. -/
structure StaticFits (nbThreads : Nat) (b : Bounds) (incr : Int) : Prop where
  span : InInt (b.pupper - b.plower)
  size : iterations b incr < 2 ^ 31
  exact : incr ∣ b.pupper - b.plower
  stop : InInt (b.plower + iterations b incr * incr)
  alone : nbThreads = 1 → InInt (iterations b incr * incr)
  blocks : incr = 1 ∨ iterations b incr < nbThreads ∨
    (nbThreads : Int) ∣ iterations b incr ∧ (0 < incr ∨ iterations b incr = nbThreads)
  idle : iterations b incr < nbThreads →
    (b.plower + iterations b incr < 2 ^ 31 → InInt (b.plower + iterations b incr - incr)) ∧
      (2 ^ 31 ≤ b.plower + iterations b incr → iterations b incr * (1 - incr) ≠ 2 ^ 32)

/-! ## What the functions compute -/

section Functions

theorem int_eq_some {x y : Int} : int x = some y ↔ InInt x ∧ x = y := by
  unfold int
  split
  next inside => simp [inside]
  next out => simp [out]

theorem intDiv_eq_some {x y z : Int} : intDiv x y = some z ↔ y ≠ 0 ∧ InInt (x.tdiv y) ∧ x.tdiv y = z := by
  unfold intDiv
  split
  next zero => simp [zero]
  next some => simp [some, int_eq_some]

theorem intMod_eq_some {x y z : Int} : intMod x y = some z ↔ y ≠ 0 ∧ InInt (x.tdiv y) ∧ x.tmod y = z := by
  simp [intMod, intDiv_eq_some, and_assoc]

theorem toInt_inInt (x : Int) : InInt (toInt x) := by
  unfold InInt toInt
  have low := Int.le_bmod (x := x) (m := 2 ^ 32) (by decide)
  have high := Int.bmod_lt (x := x) (m := 2 ^ 32) (by decide)
  omega

theorem toInt_of_inInt {x : Int} (inside : InInt x) : toInt x = x := by
  unfold InInt at inside
  unfold toInt
  exact Int.bmod_eq_of_le (by omega) (by omega)

theorem inInt_natCast {n : Nat} (small : n < 2 ^ 31) : InInt n :=
  ⟨(by decide : (-2 ^ 31 : Int) ≤ 0).trans (Int.natCast_nonneg n), Int.ofNat_lt.mpr small⟩

/-- Division overflows at one place only. -/
theorem inInt_tdiv {x y : Int} (inside : InInt x) (some : y ≠ 0) :
    InInt (x.tdiv y) ↔ ¬(x = -2 ^ 31 ∧ y = -1) := by
  have bounded := Int.natAbs_tdiv_le_natAbs x y
  constructor
  · rintro result ⟨rfl, rfl⟩
    exact absurd result (by decide)
  · intro other
    unfold InInt at *
    by_contra out
    have top : x.tdiv y = 2 ^ 31 := by omega
    have one : y.natAbs = 1 := by
      by_contra more
      have half : (x.tdiv y).natAbs * 2 ≤ x.natAbs := by
        rw [Int.natAbs_tdiv]
        exact (Nat.mul_le_mul_left _ (by omega)).trans (Nat.div_mul_le_self _ y.natAbs)
      omega
    rcases Int.natAbs_eq y with same | same
    · rw [same, one, Nat.cast_one, Int.tdiv_one] at top
      omega
    · exact other ⟨by omega, by omega⟩

/-- A conversion is off by a multiple of the range. -/
theorem toInt_eq (x : Int) : ∃ k : Int, toInt x = x + 2 ^ 32 * k := by
  unfold toInt
  rw [Int.bmod_def]
  split
  · exact ⟨-(x / 2 ^ 32), by omega⟩
  · exact ⟨-(x / 2 ^ 32) - 1, by omega⟩

theorem IterType.ofInt_toInt {type : IterType} {x : Int} (inside : type.Mem x) :
    type.ofInt (toInt x) = x := by
  cases type with
  | kmpInt32 => exact toInt_of_inInt inside
  | kmpUint32 =>
    obtain ⟨k, off⟩ := toInt_eq x
    obtain ⟨low, high⟩ := inside
    simp only [IterType.ofInt, toUnsigned, off]
    omega

/-- Two values in one half of the range of `int` are as far apart in either type. -/
theorem IterType.ofInt_of_half {type : IterType} {a x : Int} (inside : type.Mem a)
    (half : type = .kmpUint32 → (x < 0 ↔ toInt a < 0)) (value : InInt x) :
    type.ofInt x = a + (x - toInt a) := by
  cases type with
  | kmpInt32 =>
    rw [toInt_of_inInt inside]
    simp [IterType.ofInt]
  | kmpUint32 =>
    have same := half rfl
    have bounded := toInt_inInt a
    obtain ⟨k, off⟩ := toInt_eq a
    obtain ⟨low, high⟩ := inside
    simp only [IterType.ofInt, toUnsigned]
    unfold InInt at *
    omega

theorem mul_between {d : Int} {n i : Nat} (le : i ≤ n) :
    (0 : Int) ≤ i * d ∧ i * d ≤ n * d ∨ n * d ≤ i * d ∧ (i * d : Int) ≤ 0 := by
  rcases Int.le_total 0 d with up | down
  · exact .inl ⟨Int.mul_nonneg (Int.natCast_nonneg i) up,
      Int.mul_le_mul_of_nonneg_right (Int.ofNat_le.mpr le) up⟩
  · exact .inr ⟨Int.mul_le_mul_of_nonpos_right (Int.ofNat_le.mpr le) down,
      Int.mul_nonpos_of_nonneg_of_nonpos (Int.natCast_nonneg i) down⟩

theorem half_between {a d : Int} {n i : Nat} (half : a + n * d < 0 ↔ a < 0) (le : i ≤ n) :
    a + i * d < 0 ↔ a < 0 := by
  have := mul_between (d := d) le
  omega

/-- Either function is the signed one between two conversions. -/
theorem kmpcForStaticInit_eq {type : IterType} {sched : SchedType} {nbThreads t : Nat} {b : Bounds}
    {incr chunk : Int} (lower : type.Mem b.plower) (upper : type.Mem b.pupper) :
    kmpcForStaticInit type sched nbThreads t b incr chunk =
      (kmpcForStaticInit4 sched nbThreads t b.read incr chunk).map (Bounds.ofInt type) := by
  cases type with
  | kmpInt32 =>
    have same : b.read = b := by
      unfold Bounds.read
      rw [toInt_of_inInt lower, toInt_of_inInt upper]
    have id : Bounds.ofInt .kmpInt32 = fun out => out := rfl
    rw [same, id, Option.map_id']
    rfl
  | kmpUint32 =>
    simp only [kmpcForStaticInit, kmpcForStaticInit4u, Option.bind_eq_bind, Option.map_eq_bind]
    rfl

variable {b : Bounds} {incr : Int}

/-- The loop runs at least once. -/
theorem quotient_nonneg (some : Within incr b.plower b.pupper) :
    0 ≤ (b.pupper - b.plower).tdiv incr ∧
      (b.pupper - b.plower).tdiv incr = (b.pupper - b.plower).fdiv incr := by
  unfold Within at some
  split at some
  next up =>
    rw [Int.fdiv_eq_tdiv_of_nonneg (by omega) up.le]
    exact ⟨Int.tdiv_nonneg (by omega) up.le, rfl⟩
  next down =>
    rw [← Int.neg_fdiv_neg, Int.fdiv_eq_tdiv_of_nonneg (by omega) (by omega), Int.neg_tdiv_neg]
    refine ⟨?_, rfl⟩
    rw [← Int.neg_tdiv_neg]
    exact Int.tdiv_nonneg (by omega) (by omega)

theorem loopSize_eq_some (step : incr ≠ 0) {n : Int} :
    loopSize b.plower b.pupper incr = .some n ↔ (InInt (b.pupper - b.plower) ∧
      iterations b incr < 2 ^ 31) ∧ n = toUnsigned (iterations b incr) := by
  simp only [loopSize, Option.bind_eq_bind, Option.bind_eq_some_iff, int_eq_some, intDiv_eq_some,
    iterations, Option.some.injEq]
  constructor
  · rintro ⟨_, ⟨span, rfl⟩, _, ⟨-, -, rfl⟩, _, ⟨size, rfl⟩, rfl⟩
    exact ⟨⟨span, size.2⟩, rfl⟩
  · rintro ⟨⟨span, size⟩, rfl⟩
    -- a quotient is no larger than what is divided
    have bounded := Int.natAbs_tdiv_le_natAbs (b.pupper - b.plower) incr
    refine ⟨_, ⟨span, rfl⟩, _, ⟨step, ?_, rfl⟩, _, ⟨?_, rfl⟩, rfl⟩
    · unfold InInt at *
      omega
    · unfold InInt at *
      omega

/-- The loop runs at least once, so its size is its number of iterations. -/
theorem toUnsigned_iterations (some : Within incr b.plower b.pupper)
    (size : iterations b incr < 2 ^ 31) : toUnsigned (iterations b incr) = iterations b incr := by
  have positive := (quotient_nonneg some).1
  unfold toUnsigned
  unfold iterations at *
  omega

/-- The lower bound of a thread, before its conversion.  The remainder is not multiplied
by the increment. -/
def blockLower (b : Bounds) (incr : Int) (n nbThreads t : Nat) : Int :=
  if t < n % nbThreads then b.plower + blockStart n nbThreads t * incr
  else b.plower + (t * (n / nbThreads) : Nat) * incr + (n % nbThreads : Nat)

/-- The chunks of a loop size that fits in `unsigned`, for more than one thread if it does not
fit in `int`. -/
theorem static_eq_some {n nbThreads t : Nat} (team : 0 < nbThreads)
    (size : n < 2 ^ 31 ∨ 1 < nbThreads ∧ nbThreads < 256 ∧ n < 2 ^ 32)
    {out : Bounds} : static nbThreads t b incr n = some out ↔
      n / nbThreads * nbThreads < 2 ^ 31 ∧
      InInt (blockLen n nbThreads t * incr) ∧
      InInt (toInt (blockLower b incr n nbThreads t) + blockLen n nbThreads t * incr) ∧
      InInt (toInt (blockLower b incr n nbThreads t) + blockLen n nbThreads t * incr - incr) ∧
      out = {
        plastiter := toInt (blockLower b incr n nbThreads t) + blockLen n nbThreads t * incr - incr
            == b.pupper && decide (toInt (blockLower b incr n nbThreads t) ≤ b.pupper)
        plower := toInt (blockLower b incr n nbThreads t)
        pupper := toInt (blockLower b incr n nbThreads t) + blockLen n nbThreads t * incr - incr
        pstride := toInt n } := by
  have split := Nat.div_add_mod n nbThreads
  have rest_lt := Nat.mod_lt n team
  have full_le : n / nbThreads * nbThreads ≤ n := Nat.div_mul_le_self n nbThreads
  have chunk_le : n / nbThreads < 2 ^ 31 := by
    rcases size with small | ⟨several, -, large⟩
    · exact (Nat.div_le_self n nbThreads).trans_lt small
    · have half := (Nat.mul_le_mul_left (n / nbThreads) several).trans full_le
      omega
  have rest_le : n % nbThreads < 2 ^ 31 := by
    rcases size with small | ⟨-, few, -⟩
    · exact (Nat.mod_le n nbThreads).trans_lt small
    · omega
  have chunk : toInt ((n : Int) / nbThreads) = (n / nbThreads : Nat) := by
    rw [← Int.natCast_ediv]
    exact toInt_of_inInt (inInt_natCast chunk_le)
  have full : InInt (((n / nbThreads : Nat) : Int) * nbThreads) ↔
      n / nbThreads * nbThreads < 2 ^ 31 := by
    rw [← Int.natCast_mul]
    exact ⟨fun inside => by unfold InInt at inside; omega, inInt_natCast⟩
  have rest : toInt ((n : Int) - (n / nbThreads : Nat) * nbThreads) = (n % nbThreads : Nat) := by
    have value : (n : Int) - (n / nbThreads : Nat) * nbThreads = (n % nbThreads : Nat) := by
      rw [← Int.natCast_mul]
      rw [Nat.mul_comm] at split
      omega
    rw [value]
    exact toInt_of_inInt (inInt_natCast rest_le)
  by_cases whole : n / nbThreads * nbThreads < 2 ^ 31
  swap
  · simp only [static, chunk, Option.bind_eq_bind, Option.bind_eq_some_iff, int_eq_some]
    exact ⟨fun ⟨_, ⟨inside, _⟩, _⟩ => absurd (full.mp inside) whole,
      fun ⟨inside, _⟩ => absurd inside whole⟩
  have share : preciseChunk t b.plower incr (n / nbThreads : Nat) (n % nbThreads : Nat) =
      some ((blockLen n nbThreads t : Int), toInt (blockLower b incr n nbThreads t)) := by
    by_cases more : t < n % nbThreads
    · have next : InInt (((n / nbThreads : Nat) : Int) + 1) := by
        have several : 2 ≤ nbThreads := by omega
        have half := (Nat.mul_le_mul_left (n / nbThreads) several).trans_lt whole
        have room : n / nbThreads + 1 < 2 ^ 31 := by omega
        exact inInt_natCast (n := n / nbThreads + 1) room
      have start : b.plower + (t : Int) * ((n / nbThreads : Nat) + 1) * incr =
          b.plower + blockStart n nbThreads t * incr := by
        rw [blockStart, Nat.min_eq_left more.le]
        push_cast
        ring
      rw [preciseChunk, if_pos (Int.ofNat_lt.mpr more), int_eq_some.mpr ⟨next, rfl⟩, blockLen,
        blockLower, if_pos more, if_pos more, ← start]
      rfl
    · have start : b.plower + (t : Int) * (n / nbThreads : Nat) * incr + (n % nbThreads : Nat) =
          b.plower + (t * (n / nbThreads) : Nat) * incr + (n % nbThreads : Nat) := by
        push_cast
        ring
      rw [preciseChunk, if_neg (Int.ofNat_lt.not.mpr more), start, blockLen, blockLower,
        if_neg more, if_neg more, Nat.add_zero]
  simp only [static, chunk, Option.bind_eq_bind, Option.bind_eq_some_iff, int_eq_some,
    Option.some.injEq]
  constructor
  · rintro ⟨_, ⟨-, rfl⟩, _, shared, after⟩
    rw [rest, share, Option.some.injEq] at shared
    subst shared
    obtain ⟨_, ⟨steps, rfl⟩, _, ⟨stop, rfl⟩, _, ⟨last, rfl⟩, rfl⟩ := after
    exact ⟨whole, steps, stop, last, rfl⟩
  · rintro ⟨-, steps, stop, last, rfl⟩
    exact ⟨_, ⟨full.mpr whole, rfl⟩, _, by rw [rest, share], _, ⟨steps, rfl⟩, _, ⟨stop, rfl⟩, _,
      ⟨last, rfl⟩, rfl⟩

end Functions

/-! ## The loop by its indices -/

section Loop

variable {b : Bounds} {incr : Int}

/-- The number of iterations. -/
def count (b : Bounds) (incr : Int) : Nat := (iterations b incr).toNat

theorem count_pos (some : Within incr b.plower b.pupper) : 0 < count b incr := by
  have positive := (quotient_nonneg some).1
  unfold count iterations
  omega

theorem natCast_count (some : Within incr b.plower b.pupper) :
    (count b incr : Int) = iterations b incr := by
  have positive := (quotient_nonneg some).1
  unfold count iterations
  omega

section

variable (step : incr ≠ 0) (some : Within incr b.plower b.pupper)

include step some

theorem within_iff_lt (i : Nat) :
    Within incr (b.plower + i * incr) b.pupper ↔ i < count b incr := by
  have floor := (quotient_nonneg some).2
  have total := natCast_count some
  rw [within_iff_le step, ← floor]
  unfold iterations at total
  omega

theorem mem_loop {v : Int} :
    v ∈ progression b.plower b.pupper incr ↔ ∃ i < count b incr, v = b.plower + i * incr := by
  constructor
  · rintro ⟨i, rfl, within⟩
    exact ⟨i, (within_iff_lt step some i).mp within, rfl⟩
  · rintro ⟨i, less, rfl⟩
    exact ⟨i, rfl, (within_iff_lt step some i).mpr less⟩

theorem is_last_iff {i : Nat} (below : i < count b incr) :
    ¬Within incr (b.plower + i * incr + incr) b.pupper ↔ i + 1 = count b incr := by
  have next : b.plower + i * incr + incr = b.plower + ((i + 1 : Nat) : Int) * incr := by
    push_cast
    ring
  rw [next, within_iff_lt step some]
  omega

end

/-- A loop whose increment divides the distance ends on its bound. -/
theorem pupper_eq (some : Within incr b.plower b.pupper) (exact_ : incr ∣ b.pupper - b.plower) :
    b.pupper = b.plower + (count b incr : Int) * incr - incr := by
  have total := natCast_count some
  unfold iterations at total
  have divides := Int.tdiv_mul_cancel exact_
  rw [total, Int.add_mul, divides]
  omega

theorem inInt_between {a d : Int} {n : Nat} (start : InInt a) (stop : InInt (a + n * d)) {i : Nat}
    (le : i ≤ n) : InInt (a + i * d) := by
  have := mul_between (d := d) le
  unfold InInt at *
  omega

/-- The values of the loop are of its type. -/
theorem inInt_loop (step : incr ≠ 0) (some : Within incr b.plower b.pupper) (lower : InInt b.plower)
    (upper : InInt b.pupper) {i : Nat} (below : i < count b incr) :
    InInt (b.plower + i * incr) := by
  have within := (within_iff_lt step some i).mpr below
  unfold Within at within some
  unfold InInt at *
  split at within
  next up =>
    have := Int.mul_nonneg (Int.natCast_nonneg i) up.le
    omega
  next down =>
    have := Int.mul_nonpos_of_nonneg_of_nonpos (Int.natCast_nonneg i) (Int.not_lt.mp down)
    omega

end Loop

/-! ## Blocks -/

section Static

variable {b : Bounds} {incr : Int} {nbThreads : Nat}

/-- The bounds of a thread's block. -/
def blockOut (b : Bounds) (incr : Int) (nbThreads t : Nat) : Bounds :=
  let plower := toInt (blockLower b incr (count b incr) nbThreads t)
  let pupper := plower + blockLen (count b incr) nbThreads t * incr - incr
  { plastiter := pupper == b.pupper && decide (plower ≤ b.pupper), plower, pupper,
    pstride := count b incr }

/-- No signed operation overflows for thread `t`. -/
structure BlockDefined (b : Bounds) (incr : Int) (nbThreads t : Nat) : Prop where
  steps : InInt (blockLen (count b incr) nbThreads t * incr)
  next : InInt ((blockOut b incr nbThreads t).plower + blockLen (count b incr) nbThreads t * incr)
  pupper : InInt (blockOut b incr nbThreads t).pupper

theorem kmpcForStaticInit4_static (step : incr ≠ 0) (some : Within incr b.plower b.pupper)
    (team : 0 < nbThreads) {t : Nat} {chunk : Int} {out : Bounds} :
    kmpcForStaticInit4 .kmpSchStatic nbThreads t b incr chunk = .some out ↔
      (InInt (b.pupper - b.plower) ∧ iterations b incr < 2 ^ 31) ∧
        BlockDefined b incr nbThreads t ∧ out = blockOut b incr nbThreads t := by
  have total := natCast_count some
  have stride : count b incr < 2 ^ 31 → toInt (count b incr) = count b incr := fun size =>
    toInt_of_inInt (inInt_natCast size)
  simp only [kmpcForStaticInit4, Option.bind_eq_bind, Option.bind_eq_some_iff,
    loopSize_eq_some step]
  constructor
  · rintro ⟨_, ⟨⟨span, size⟩, rfl⟩, done⟩
    rw [toUnsigned_iterations some size, ← total, static_eq_some team (by omega)] at done
    obtain ⟨-, steps, next, pupper, rfl⟩ := done
    refine ⟨⟨span, size⟩, ⟨steps, next, pupper⟩, ?_⟩
    rw [stride (by omega)]
    rfl
  · rintro ⟨⟨span, size⟩, ⟨steps, next, pupper⟩, rfl⟩
    refine ⟨_, ⟨⟨span, size⟩, rfl⟩, ?_⟩
    rw [toUnsigned_iterations some size, ← total, static_eq_some team (by omega)]
    refine ⟨?_, steps, next, pupper, ?_⟩
    · have := Nat.div_mul_le_self (count b incr) nbThreads
      omega
    · rw [stride (by omega)]
      rfl

theorem mem_blockOut (step : incr ≠ 0) {t : Nat} {globalUpper v : Int} :
    v ∈ executes .kmpSchStatic globalUpper incr (blockOut b incr nbThreads t) ↔
      ∃ i < blockLen (count b incr) nbThreads t,
        v = (blockOut b incr nbThreads t).plower + i * incr := by
  refine (mem_progression_steps step (blockLen (count b incr) nbThreads t)).trans ?_
  simp only [Int.ofNat_lt]

/-- Blocks that are where they should be share out the loop. -/
theorem partitions_blocks (step : incr ≠ 0) (some : Within incr b.plower b.pupper)
    (team : 0 < nbThreads)
    (lower : ∀ t < nbThreads, 0 < blockLen (count b incr) nbThreads t →
      (blockOut b incr nbThreads t).plower =
        b.plower + blockStart (count b incr) nbThreads t * incr)
    (flag : ∀ t < nbThreads, (blockOut b incr nbThreads t).plastiter = true ↔
      0 < blockLen (count b incr) nbThreads t ∧
        blockStart (count b incr) nbThreads t + blockLen (count b incr) nbThreads t = count b incr) :
    Partitions .kmpSchStatic nbThreads b incr (blockOut b incr nbThreads) := by
  -- what a thread runs, by the index in the loop
  have runs : ∀ t < nbThreads, ∀ v,
      v ∈ executes .kmpSchStatic b.pupper incr (blockOut b incr nbThreads t) ↔
        ∃ i, (blockStart (count b incr) nbThreads t ≤ i ∧
          i < blockStart (count b incr) nbThreads t + blockLen (count b incr) nbThreads t) ∧
            v = b.plower + i * incr := by
    intro t less v
    rw [mem_blockOut step]
    constructor
    · rintro ⟨i, below, rfl⟩
      refine ⟨blockStart (count b incr) nbThreads t + i, by omega, ?_⟩
      rw [lower t less (by omega)]
      push_cast
      ring
    · rintro ⟨i, ⟨from_, below⟩, rfl⟩
      refine ⟨i - blockStart (count b incr) nbThreads t, by omega, ?_⟩
      rw [lower t less (by omega), Int.ofNat_sub from_]
      ring
  refine ⟨fun v here => ?_, fun t less v here => ?_, fun t less => ?_⟩
  · obtain ⟨i, below, rfl⟩ := (mem_loop step some).mp here
    obtain ⟨t, ⟨less, block⟩, unique⟩ := exists_unique_block team below
    refine ⟨t, ⟨less, (runs t less _).mpr ⟨i, block, rfl⟩⟩, fun t' ⟨less', there⟩ => ?_⟩
    obtain ⟨j, block', same⟩ := (runs t' less' _).mp there
    rw [add_mul_inj step, Int.natCast_inj] at same
    exact unique t' ⟨less', same ▸ block'⟩
  · obtain ⟨i, block, rfl⟩ := (runs t less v).mp here
    exact (mem_loop step some).mpr ⟨i, block.2.trans_le (block_le less), rfl⟩
  · have inside := block_le (n := count b incr) less
    rw [flag t less]
    constructor
    · rintro ⟨busy, stop⟩
      refine ⟨_, (runs t less _).mpr ⟨count b incr - 1, by omega, rfl⟩, ?_⟩
      rw [is_last_iff step some (by omega)]
      omega
    · rintro ⟨v, here, last⟩
      obtain ⟨i, block, rfl⟩ := (runs t less v).mp here
      rw [is_last_iff step some (by omega)] at last
      omega

theorem blockLen_of_lt {n m t : Nat} (few : n < m) (busy : 0 < blockLen n m t) : blockLen n m t = 1 := by
  unfold blockLen at busy ⊢
  rw [Nat.div_eq_of_lt few] at busy ⊢
  split at busy <;> simp_all

theorem blockLen_of_dvd {n m t : Nat} (divides : m ∣ n) : blockLen n m t = n / m := by
  rw [blockLen, Nat.mod_eq_zero_of_dvd divides, if_neg (Nat.not_lt_zero t), Nat.add_zero]

/-- In a loop that goes down every thread has at most one iteration. -/
theorem StaticFits.single (fits : StaticFits nbThreads b incr)
    (some : Within incr b.plower b.pupper) {t : Nat} (less : t < nbThreads)
    (busy : 0 < blockLen (count b incr) nbThreads t) (down : incr < 0) :
    blockLen (count b incr) nbThreads t = 1 := by
  have total := natCast_count some
  rcases fits.blocks with one | few | ⟨divides, up | all⟩
  · omega
  · rw [← total, Int.ofNat_lt] at few
    exact blockLen_of_lt few busy
  · omega
  · rw [← total, Int.natCast_dvd_natCast] at divides
    rw [← total, Int.natCast_inj] at all
    rw [blockLen_of_dvd divides, all, Nat.div_self (by omega)]

/-- The steps of one block do not overflow. -/
theorem StaticFits.steps (fits : StaticFits nbThreads b incr) (some : Within incr b.plower b.pupper)
    (start : InInt b.plower) (incr_in : InInt incr) {t : Nat} (less : t < nbThreads)
    (busy : 0 < blockLen (count b incr) nbThreads t) :
    InInt (blockLen (count b incr) nbThreads t * incr) := by
  have total := natCast_count some
  have small := fits.size
  have stop := fits.stop
  have inside := block_le (n := count b incr) less
  rw [← total] at small stop
  rcases Nat.lt_or_ge 1 nbThreads with several | single
  · rcases fits.blocks with one | few | ⟨divides, up⟩
    · have whole : (blockLen (count b incr) nbThreads t : Int) * incr =
          blockLen (count b incr) nbThreads t := by rw [one, Int.mul_one]
      rw [whole]
      exact inInt_natCast (by omega)
    · rw [← total, Int.ofNat_lt] at few
      rw [blockLen_of_lt few busy]
      simpa using incr_in
    · rw [← total, Int.natCast_dvd_natCast] at divides
      rw [blockLen_of_dvd divides]
      rcases up with up | all
      · have half : count b incr / nbThreads * 2 ≤ count b incr :=
          (Nat.mul_le_mul_left _ several).trans (Nat.div_mul_le_self _ _)
        have double : ((count b incr / nbThreads : Nat) : Int) * incr * 2 ≤ count b incr * incr := by
          calc
            ((count b incr / nbThreads : Nat) : Int) * incr * 2 =
                ((count b incr / nbThreads * 2 : Nat) : Int) * incr := by push_cast; ring
            _ ≤ count b incr * incr :=
              Int.mul_le_mul_of_nonneg_right (Int.ofNat_le.mpr half) up.le
        have nonneg : 0 ≤ ((count b incr / nbThreads : Nat) : Int) * incr :=
          Int.mul_nonneg (Int.natCast_nonneg _) up.le
        unfold InInt at start stop ⊢
        omega
      · rw [← total, Int.natCast_inj] at all
        rw [all, Nat.div_self (by omega)]
        simpa using incr_in
  · have single : nbThreads = 1 := by omega
    have whole := fits.alone single
    rw [← total] at whole
    subst single
    rw [blockLen_of_dvd (Nat.one_dvd _), Nat.div_one]
    exact whole

/-- Where the remainder does no harm, a block starts where it should. -/
theorem blockLower_eq (place : incr = 1 ∨ count b incr < nbThreads ∨ nbThreads ∣ count b incr)
    {t : Nat} (busy : 0 < blockLen (count b incr) nbThreads t) :
    blockLower b incr (count b incr) nbThreads t =
      b.plower + blockStart (count b incr) nbThreads t * incr := by
  unfold blockLower
  split
  next => rfl
  next rest =>
    have least : min t (count b incr % nbThreads) = count b incr % nbThreads :=
      Nat.min_eq_right (Nat.not_lt.mp rest)
    rcases place with one | few | divides
    · rw [blockStart, least, one]
      push_cast
      ring
    · rw [blockLen, Nat.div_eq_of_lt few, if_neg rest] at busy
      omega
    · rw [blockStart, least, Nat.mod_eq_zero_of_dvd divides]
      push_cast
      ring

theorem StaticFits.place (fits : StaticFits nbThreads b incr)
    (some : Within incr b.plower b.pupper) :
    incr = 1 ∨ count b incr < nbThreads ∨ nbThreads ∣ count b incr := by
  have blocks := fits.blocks
  rw [← natCast_count some, Int.ofNat_lt, Int.natCast_dvd_natCast] at blocks
  rcases blocks with one | few | ⟨divides, -⟩
  · exact Or.inl one
  · exact Or.inr (Or.inl few)
  · exact Or.inr (Or.inr divides)

/-- Where the blocks of a loop that fits start. -/
theorem StaticFits.lower (fits : StaticFits nbThreads b incr) (some : Within incr b.plower b.pupper)
    (start : InInt b.plower) {t : Nat} (less : t < nbThreads)
    (busy : 0 < blockLen (count b incr) nbThreads t) :
    (blockOut b incr nbThreads t).plower =
      b.plower + blockStart (count b incr) nbThreads t * incr := by
  have total := natCast_count some
  have stop := fits.stop
  rw [← total] at stop
  have inside := inInt_between start stop (i := blockStart (count b incr) nbThreads t)
    ((Nat.le_add_right _ _).trans (block_le less))
  have same : (blockOut b incr nbThreads t).plower = toInt (blockLower b incr (count b incr) nbThreads t) :=
    rfl
  rw [same, blockLower_eq (fits.place some) busy, toInt_of_inInt inside]

/-- A thread without work: the loop has fewer iterations than the team threads. -/
theorem idle_block (team : 0 < nbThreads) {t : Nat} (none : blockLen (count b incr) nbThreads t = 0) :
    count b incr < nbThreads ∧ count b incr ≤ t ∧
      (blockOut b incr nbThreads t).plower = toInt (b.plower + count b incr) := by
  unfold blockLen at none
  have few : count b incr < nbThreads := by
    by_contra many
    have := Nat.div_pos (Nat.not_lt.mp many) team
    omega
  have rest : count b incr % nbThreads = count b incr := Nat.mod_eq_of_lt few
  rw [Nat.div_eq_of_lt few, rest] at none
  have late : ¬t < count b incr := fun early => by
    rw [if_pos early] at none
    omega
  refine ⟨few, Nat.not_lt.mp late, congrArg toInt ?_⟩
  rw [blockLower, rest, if_neg late, Nat.div_eq_of_lt few]
  simp

/-- The conversion of an idle thread's lower bound wraps at most once. -/
theorem toInt_past {a : Int} {n : Nat} (start : InInt a) (few : n < 256) :
    toInt (a + n) = if a + n < 2 ^ 31 then a + n else a + n - 2 ^ 32 := by
  obtain ⟨k, wraps⟩ := toInt_eq (a + n)
  have inside := toInt_inInt (a + n)
  unfold InInt at inside start
  split <;> omega

theorem StaticFits.defined (fits : StaticFits nbThreads b incr) (step : incr ≠ 0)
    (some : Within incr b.plower b.pupper) (start : InInt b.plower) (incr_in : InInt incr)
    (team : nbThreads < 256) {t : Nat} (less : t < nbThreads) : BlockDefined b incr nbThreads t := by
  have total := natCast_count some
  have positive := count_pos some
  have stop := fits.stop
  rw [← total] at stop
  rcases Nat.eq_zero_or_pos (blockLen (count b incr) nbThreads t) with none | busy
  · obtain ⟨few, -, lower⟩ := idle_block (Nat.zero_lt_of_lt less) none
    rw [toInt_past start (by omega)] at lower
    have past := fits.idle
    rw [← total, Int.ofNat_lt] at past
    obtain ⟨near, -⟩ := past few
    have pupper : (blockOut b incr nbThreads t).pupper =
        (blockOut b incr nbThreads t).plower - incr := by
      have same : (blockOut b incr nbThreads t).pupper = (blockOut b incr nbThreads t).plower +
        (blockLen (count b incr) nbThreads t : Nat) * incr - incr := rfl
      rw [same, none]
      ring
    have inside : InInt (blockOut b incr nbThreads t).plower := toInt_inInt _
    refine ⟨?_, ?_, ?_⟩
    · rw [none]
      exact ⟨by simp, by simp⟩
    · rw [none]
      simpa using inside
    · rw [pupper, lower]
      split
      next here => exact near here
      next wraps =>
        -- only a loop that goes down can start so near the end of the range
        have down : incr < 0 := by
          rcases lt_or_ge incr 0 with down | up
          · exact down
          · have more : (count b incr : Int) * 1 ≤ count b incr * incr :=
              Int.mul_le_mul_of_nonneg_left (by omega) (by omega)
            unfold InInt at stop
            omega
        unfold InInt at *
        omega
  · have lower := fits.lower some start less busy
    have inside := block_le (n := count b incr) less
    have next : (blockOut b incr nbThreads t).plower + blockLen (count b incr) nbThreads t * incr =
        b.plower + ((blockStart (count b incr) nbThreads t + blockLen (count b incr) nbThreads t : Nat) :
          Int) * incr := by
      rw [lower]
      push_cast
      ring
    have pupper : (blockOut b incr nbThreads t).pupper =
        b.plower + ((blockStart (count b incr) nbThreads t + blockLen (count b incr) nbThreads t - 1 :
          Nat) : Int) * incr := by
      have same : (blockOut b incr nbThreads t).pupper = (blockOut b incr nbThreads t).plower +
        (blockLen (count b incr) nbThreads t : Nat) * incr - incr := rfl
      rw [same, next, Nat.add_sub_assoc busy]
      push_cast [Nat.sub_add_cancel busy, Int.ofNat_sub busy]
      ring
    refine ⟨?_, ?_, ?_⟩
    · exact fits.steps some start incr_in less busy
    · rw [next]
      exact inInt_between start stop inside
    · rw [pupper]
      exact inInt_between start stop (by omega)

theorem plastiter_iff {t : Nat} : (blockOut b incr nbThreads t).plastiter = true ↔
    (blockOut b incr nbThreads t).plower + blockLen (count b incr) nbThreads t * incr - incr =
      b.pupper ∧ (blockOut b incr nbThreads t).plower ≤ b.pupper := by
  simp [blockOut]

/-- The flag of a thread whose block ends where the loop does. -/
theorem StaticFits.flag (fits : StaticFits nbThreads b incr) (step : incr ≠ 0)
    (some : Within incr b.plower b.pupper) (start : InInt b.plower) (team : nbThreads < 256)
    {t : Nat} (less : t < nbThreads) : (blockOut b incr nbThreads t).plastiter = true ↔
      0 < blockLen (count b incr) nbThreads t ∧
        blockStart (count b incr) nbThreads t + blockLen (count b incr) nbThreads t =
          count b incr := by
  have total := natCast_count some
  have positive := count_pos some
  have upper := pupper_eq some fits.exact
  rw [plastiter_iff]
  rcases Nat.eq_zero_or_pos (blockLen (count b incr) nbThreads t) with none | busy
  · obtain ⟨few, -, lower⟩ := idle_block (Nat.zero_lt_of_lt less) none
    rw [toInt_past start (by omega)] at lower
    have past := fits.idle
    rw [← total, Int.ofNat_lt] at past
    obtain ⟨-, far⟩ := past few
    rw [none]
    refine ⟨fun ⟨same, before⟩ => ?_, fun ⟨never, _⟩ => absurd never (Nat.lt_irrefl 0)⟩
    exfalso
    rw [lower, Nat.cast_zero, Int.zero_mul, Int.add_zero, upper] at same
    rw [lower, upper] at before
    split at same
    next here =>
      have one : (count b incr : Int) * 1 = count b incr * incr := by omega
      have unit : incr = 1 := (Int.mul_eq_mul_left_iff (by omega)).mp one.symm
      rw [if_pos here] at before
      omega
    next wraps =>
      refine far (by omega) ?_
      rw [Int.mul_sub]
      omega
  · have lower := fits.lower some start less busy
    have next : (blockOut b incr nbThreads t).plower + blockLen (count b incr) nbThreads t * incr =
        b.plower + ((blockStart (count b incr) nbThreads t + blockLen (count b incr) nbThreads t :
          Nat) : Int) * incr := by
      rw [lower]
      push_cast
      ring
    rw [next, upper]
    constructor
    · rintro ⟨same, -⟩
      refine ⟨busy, Int.natCast_inj.mp ((add_mul_inj (a := b.plower) step).mp ?_)⟩
      omega
    · rintro ⟨-, stop⟩
      refine ⟨by rw [stop], ?_⟩
      rw [lower]
      -- a block of a loop that goes down has one iteration
      have back : 0 ≤ ((blockLen (count b incr) nbThreads t - 1 : Nat) : Int) * incr := by
        rcases lt_or_ge incr 0 with down | up
        · rw [fits.single some less busy down]
          simp
        · exact Int.mul_nonneg (Int.natCast_nonneg _) up
      have whole : (count b incr : Int) * incr = blockStart (count b incr) nbThreads t * incr +
          blockLen (count b incr) nbThreads t * incr := by
        rw [← Int.add_mul, ← Int.natCast_add, stop]
      have rest : ((blockLen (count b incr) nbThreads t - 1 : Nat) : Int) * incr =
          blockLen (count b incr) nbThreads t * incr - incr := by
        push_cast [Int.ofNat_sub busy]
        ring
      omega

section

variable (step : incr ≠ 0) (some : Within incr b.plower b.pupper)

include step some

/-- A thread with a flag runs the last iteration, which ends at the bound. -/
theorem exists_last
    (works : Partitions .kmpSchStatic nbThreads b incr (blockOut b incr nbThreads)) :
    ∃ t < nbThreads, ∃ i < blockLen (count b incr) nbThreads t,
      b.plower + (count b incr : Int) * incr - incr =
        (blockOut b incr nbThreads t).plower + i * incr ∧
      (blockOut b incr nbThreads t).plower + blockLen (count b incr) nbThreads t * incr - incr =
        b.pupper ∧ (blockOut b incr nbThreads t).plower ≤ b.pupper := by
  have positive := count_pos some
  have here : b.plower + ((count b incr - 1 : Nat) : Int) * incr ∈
      progression b.plower b.pupper incr := (mem_loop step some).mpr ⟨_, by omega, rfl⟩
  obtain ⟨t, ⟨less, runs⟩, -⟩ := works.once _ here
  have flag := (works.last t less).mpr ⟨_, runs, (is_last_iff step some (by omega)).mpr (by omega)⟩
  obtain ⟨i, inside, value⟩ := (mem_blockOut step).mp runs
  refine ⟨t, less, i, inside, ?_, plastiter_iff.mp flag⟩
  rw [← value, Int.ofNat_sub positive]
  push_cast
  ring

section

variable (lower : InInt b.plower) (upper : InInt b.pupper)

include lower upper

/-- A thread with one of the longer blocks starts where it should. -/
theorem early_plower (positive : 0 < nbThreads) {t : Nat}
    (early : t < count b incr % nbThreads) : (blockOut b incr nbThreads t).plower =
      b.plower + blockStart (count b incr) nbThreads t * incr := by
  have inside := block_le (n := count b incr) (early.trans (Nat.mod_lt _ positive))
  have len : 0 < blockLen (count b incr) nbThreads t := by
    rw [blockLen, if_pos early]
    exact Nat.succ_pos _
  have same : (blockOut b incr nbThreads t).plower =
    toInt (blockLower b incr (count b incr) nbThreads t) := rfl
  rw [same, blockLower, if_pos early]
  exact toInt_of_inInt (inInt_loop step some lower upper (by omega))

/-- The first thread behind the longer blocks starts in one of these, unless the increment is
one. -/
theorem exists_same_start (span : InInt (b.pupper - b.plower))
    (team : nbThreads < 256) (other : incr ≠ 1) (many : nbThreads ≤ count b incr)
    (positive : 0 < nbThreads) (rest : ¬nbThreads ∣ count b incr)
    (here : (blockOut b incr nbThreads (count b incr % nbThreads)).plower ∈
      progression b.plower b.pupper incr) : ∃ t < count b incr % nbThreads,
      (blockOut b incr nbThreads (count b incr % nbThreads)).plower ∈
        executes .kmpSchStatic b.pupper incr (blockOut b incr nbThreads t) := by
  have some_rest : 0 < count b incr % nbThreads := Nat.pos_of_ne_zero fun none =>
    rest (Nat.dvd_of_mod_eq_zero none)
  have rest_lt := Nat.mod_lt (count b incr) positive
  have chunk : 0 < count b incr / nbThreads := Nat.div_pos many positive
  have first : count b incr % nbThreads * (count b incr / nbThreads) < count b incr := by
    have split := Nat.mod_add_div (count b incr) nbThreads
    have := Nat.mul_lt_mul_of_pos_right rest_lt chunk
    omega
  obtain ⟨x, below, value⟩ := (mem_loop step some).mp here
  have start : (blockOut b incr nbThreads (count b incr % nbThreads)).plower =
      toInt (b.plower + ((count b incr % nbThreads * (count b incr / nbThreads) : Nat) : Int) * incr +
        (count b incr % nbThreads : Nat)) := by
    have same : (blockOut b incr nbThreads (count b incr % nbThreads)).plower =
      toInt (blockLower b incr (count b incr) nbThreads (count b incr % nbThreads)) := rfl
    rw [same, blockLower, if_neg (Nat.lt_irrefl _)]
  have inside := (within_iff_lt step some x).mpr below
  have inside' := (within_iff_lt step some _).mpr first
  obtain ⟨k, wraps⟩ := toInt_eq (b.plower +
    ((count b incr % nbThreads * (count b incr / nbThreads) : Nat) : Int) * incr +
      (count b incr % nbThreads : Nat))
  rw [← start, value] at wraps
  have before : x < blockStart (count b incr) nbThreads (count b incr % nbThreads) := by
    rw [blockStart, min_self]
    have bounded : count b incr % nbThreads < 256 := rest_lt.trans team
    generalize count b incr % nbThreads * (count b incr / nbThreads) = y at *
    generalize count b incr % nbThreads = r at *
    clear value start
    have zero : k = 0 := by
      unfold Within at inside inside' some
      unfold InInt at span
      have nonneg : ∀ z : Nat, 0 < incr → 0 ≤ (z : Int) * incr := fun z up =>
        Int.mul_nonneg (Int.natCast_nonneg z) up.le
      have nonpos : ∀ z : Nat, ¬0 < incr → (z : Int) * incr ≤ 0 := fun z down =>
        Int.mul_nonpos_of_nonneg_of_nonpos (Int.natCast_nonneg z) (Int.not_lt.mp down)
      by_cases up : 0 < incr
      · rw [if_pos up] at inside inside' some
        have := nonneg x up
        have := nonneg y up
        omega
      · rw [if_neg up] at inside inside' some
        have := nonpos x up
        have := nonpos y up
        omega
    by_contra late
    have apart : ((x - y : Nat) : Int) * incr = r := by
      rw [Int.ofNat_sub (by omega), Int.sub_mul]
      omega
    rcases lt_or_gt_of_ne step with down | up
    · have := Int.mul_neg_of_pos_of_neg (by omega : (0 : Int) < (x - y : Nat)) down
      omega
    · have := Int.mul_le_mul_of_nonneg_left (by omega : (2 : Int) ≤ incr)
        (Int.natCast_nonneg (x - y))
      omega
  obtain ⟨t, ⟨less, block⟩, -⟩ := exists_unique_block positive below
  have early : t < count b incr % nbThreads := by
    by_contra late
    have := blockStart_mono (count b incr) nbThreads (Nat.not_lt.mp late)
    omega
  have low := early_plower step some lower upper positive early
  refine ⟨t, early, (mem_blockOut step).mpr
    ⟨x - blockStart (count b incr) nbThreads t, by omega, ?_⟩⟩
  rw [value, low, Int.ofNat_sub block.1]
  ring

/-- The remainder must not meet an increment other than one. -/
theorem blocks_of_partitions (span : InInt (b.pupper - b.plower)) (team : nbThreads < 256)
    (works : Partitions .kmpSchStatic nbThreads b incr (blockOut b incr nbThreads)) (other : incr ≠ 1)
    (many : nbThreads ≤ count b incr) (positive : 0 < nbThreads) : nbThreads ∣ count b incr := by
  by_contra rest
  have rest_lt := Nat.mod_lt (count b incr) positive
  have chunk : 0 < count b incr / nbThreads := Nat.div_pos many positive
  have len : blockLen (count b incr) nbThreads (count b incr % nbThreads) =
      count b incr / nbThreads := by
    rw [blockLen, if_neg (Nat.lt_irrefl _), Nat.add_zero]
  have runs : (blockOut b incr nbThreads (count b incr % nbThreads)).plower ∈
      executes .kmpSchStatic b.pupper incr (blockOut b incr nbThreads (count b incr % nbThreads)) :=
    (mem_blockOut step).mpr ⟨0, by omega, by simp⟩
  have here := works.only _ rest_lt runs
  obtain ⟨t, early, runs'⟩ := exists_same_start step some lower upper span team other many positive
    rest here
  have twice := (works.once _ here).unique ⟨rest_lt, runs⟩ ⟨early.trans rest_lt, runs'⟩
  omega

/-- What a team that works says about the loop. -/
theorem staticFits_of_partitions (team : 0 < nbThreads) (small : nbThreads < 256)
    (span : InInt (b.pupper - b.plower)) (size : iterations b incr < 2 ^ 31)
    (defined : ∀ t < nbThreads, BlockDefined b incr nbThreads t)
    (works : Partitions .kmpSchStatic nbThreads b incr (blockOut b incr nbThreads)) :
    StaticFits nbThreads b incr := by
  have total := natCast_count some
  have positive := count_pos some
  obtain ⟨t, less, i, inside, last, stop, before⟩ := exists_last step some works
  have exact_ : incr ∣ b.pupper - b.plower := by
    refine ⟨(blockLen (count b incr) nbThreads t : Int) - 1 - i + count b incr - 1, ?_⟩
    linarith [last, stop]
  have upper_eq := pupper_eq some exact_
  refine { span, size, exact := exact_, stop := ?_, alone := ?_, blocks := ?_, idle := ?_ }
  · have next := (defined t less).next
    rw [← total]
    convert next using 1
    linarith
  · intro single
    have steps := (defined 0 team).steps
    rw [single, blockLen_of_dvd (Nat.one_dvd _), Nat.div_one, total] at steps
    exact steps
  · by_cases one : incr = 1
    · exact Or.inl one
    refine Or.inr ?_
    by_cases few : iterations b incr < nbThreads
    · exact Or.inl few
    refine Or.inr ?_
    have many : nbThreads ≤ count b incr := by
      rw [← total] at few
      omega
    have divides := blocks_of_partitions step some lower upper span small works one many team
    refine ⟨total ▸ Int.natCast_dvd_natCast.mpr divides, ?_⟩
    rcases lt_or_gt_of_ne step with down | up
    · -- going down, the flag asks for a block of one iteration
      have back : 0 ≤ (i : Int) * incr := by linarith
      have only : i = 0 := by
        by_contra more
        have := Int.mul_neg_of_pos_of_neg (by omega : (0 : Int) < i) down
        omega
      subst only
      have len : (blockLen (count b incr) nbThreads t : Int) * incr = 1 * incr := by
        push_cast at last
        linarith
      rw [Int.mul_eq_mul_right_iff step, blockLen_of_dvd divides] at len
      have all := Nat.div_mul_cancel divides
      rw [show count b incr / nbThreads = 1 by exact_mod_cast len] at all
      exact Or.inr (by omega)
    · exact Or.inl up
  · intro few
    rw [← total, Int.ofNat_lt] at few
    have none : blockLen (count b incr) nbThreads (count b incr) = 0 := by
      rw [blockLen, Nat.div_eq_of_lt few, Nat.mod_eq_of_lt few, if_neg (Nat.lt_irrefl _)]
    obtain ⟨-, -, low⟩ := idle_block team none
    rw [toInt_past lower (by omega)] at low
    have pupper := (defined (count b incr) few).pupper
    have same : (blockOut b incr nbThreads (count b incr)).pupper =
        (blockOut b incr nbThreads (count b incr)).plower - incr := by
      have same : (blockOut b incr nbThreads (count b incr)).pupper =
        (blockOut b incr nbThreads (count b incr)).plower +
          (blockLen (count b incr) nbThreads (count b incr) : Nat) * incr - incr := rfl
      rw [same, none]
      ring
    rw [← total]
    constructor
    · intro near
      rw [same, low, if_pos near] at pupper
      exact pupper
    · intro far wraps
      have flag : (blockOut b incr nbThreads (count b incr)).plastiter = true := by
        rw [plastiter_iff, none, low, if_neg (by omega), upper_eq]
        rw [Int.mul_sub] at wraps
        have down : incr < 0 := by
          by_contra up
          have := Int.mul_nonneg (Int.natCast_nonneg (count b incr)) (Int.not_lt.mp up)
          unfold InInt at lower
          omega
        refine ⟨?_, ?_⟩
        · push_cast
          linarith
        · linarith
      obtain ⟨v, runs, -⟩ := (works.last _ few).mp flag
      obtain ⟨i, never, -⟩ := (mem_blockOut step).mp runs
      omega

theorem static_works_iff (incr_in : InInt incr) (team : 0 < nbThreads)
    (small : nbThreads < 256) (chunk : Int) :
    Works (fun t => kmpcForStaticInit4 .kmpSchStatic nbThreads t b incr chunk) .kmpSchStatic
      nbThreads b incr ↔ StaticFits nbThreads b incr := by
  constructor
  · rintro ⟨out, computes, works⟩
    have computed := fun t less => (kmpcForStaticInit4_static step some team).mp (computes t less)
    obtain ⟨⟨span, size⟩, -⟩ := computed 0 team
    refine staticFits_of_partitions step some lower upper team small span size
      (fun t less => (computed t less).2.1) (works.congr fun t less => (computed t less).2.2)
  · intro fits
    refine ⟨blockOut b incr nbThreads, fun t less => ?_, ?_⟩
    · exact (kmpcForStaticInit4_static step some team).mpr
        ⟨⟨fits.span, fits.size⟩, fits.defined step some lower incr_in small less, rfl⟩
    · exact partitions_blocks step some team (fun t less => fits.lower some lower less)
        fun t less => fits.flag step some lower small less

end

end

end Static

end SnitchCluster.Runtime.StaticSchedule
