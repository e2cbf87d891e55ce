/-
# Kernels.Xoshiro128p -- a jump of 2^64 steps

The state update shifts, rotates and combines by exclusive or, so over the field of two
elements it is a linear map of 128 bits (`step_linear`) and a root of its characteristic
polynomial (`step_root`, seen on the states of one bit).  The constants of
`xoshiro128p_jump` are the coefficients of the variable squared 64 times modulo this
polynomial, so the loop over them, which adds up the states at which a constant has a bit,
ends in the state after `2 ^ 64` calls (`jump_eq`).
-/
import SnitchCluster.Theory.JumpAhead
import SnitchCluster.Theory.Loops

namespace SnitchCluster.Kernels

open Theory
open Theory.BitManip (Linear)
open Theory.JumpAhead
open Theory.Loops (loop)

/-- `splitmix64_t` -/
structure Splitmix64 where
  state : BitVec 64
  deriving DecidableEq, Repr

namespace Splitmix64

/-- `splitmix64_next`: the generator after the call, and what it returns. -/
def next (sp64 : Splitmix64) : Splitmix64 × BitVec 64 :=
  let z := sp64.state + 0x9e3779b97f4a7c15
  let z1 := (z ^^^ z >>> 30) * 0xbf58476d1ce4e5b9
  let z2 := (z1 ^^^ z1 >>> 27) * 0x94d049bb133111eb
  ({ state := z }, z2 ^^^ z2 >>> 31)

end Splitmix64

/-- `xoshiro128p_t` -/
structure Xoshiro128p where
  s0 : BitVec 32
  s1 : BitVec 32
  s2 : BitVec 32
  s3 : BitVec 32
  deriving DecidableEq, Repr

namespace Xoshiro128p

/-- `xoshiro128p_init` -/
def init (seed : BitVec 32) : Xoshiro128p :=
  let r0 := (Splitmix64.mk (seed.setWidth 64)).next
  let r1 := r0.1.next
  let r2 := r1.1.next
  let r3 := r2.1.next
  { s0 := r0.2.setWidth 32, s1 := r1.2.setWidth 32, s2 := r2.2.setWidth 32,
    s3 := r3.2.setWidth 32 }

/-- What a call of `xoshiro128p_next` returns. -/
def result (x : Xoshiro128p) : BitVec 32 := x.s0 + x.s3

/-- The generator after a call of `xoshiro128p_next`. -/
def next (x : Xoshiro128p) : Xoshiro128p :=
  let t := x.s1 <<< 9
  let s2 := x.s2 ^^^ x.s0
  let s3 := x.s3 ^^^ x.s1
  let s1 := x.s1 ^^^ s2
  let s0 := x.s0 ^^^ s3
  let s2 := s2 ^^^ t
  { s0 := s0, s1 := s1, s2 := s2, s3 := s3 <<< 11 ||| s3 >>> (32 - 11) }

def JUMP : List (BitVec 32) := [0x8764000b, 0xf542d2d3, 0x6fa035c3, 0x77f2db5b]

def xor (x y : Xoshiro128p) : Xoshiro128p :=
  { s0 := x.s0 ^^^ y.s0, s1 := x.s1 ^^^ y.s1, s2 := x.s2 ^^^ y.s2, s3 := x.s3 ^^^ y.s3 }

def zero : Xoshiro128p := { s0 := 0, s1 := 0, s2 := 0, s3 := 0 }

/-- The inner loop of `xoshiro128p_jump`, over the bits of one constant: the sum so far
and the state. -/
def jumpBit (constant : BitVec 32) (b : Nat) (s : Xoshiro128p × Xoshiro128p) :
    Xoshiro128p × Xoshiro128p :=
  (if constant &&& 1#32 <<< b ≠ 0 then s.1.xor s.2 else s.1, s.2.next)

/-- `xoshiro128p_jump` -/
def jump (x : Xoshiro128p) : Xoshiro128p :=
  (loop JUMP.length (fun i => loop 32 (jumpBit (JUMP.getD i 0))) (zero, x)).1

/-- The next element of the array is a copy of this one, one jump ahead. -/
def copyJump (i : Nat) (xs : Nat → Xoshiro128p) : Nat → Xoshiro128p :=
  Function.update xs (i + 1) (xs i).jump

/-- `xoshiro128p_init_n`, over the array it fills. -/
def initN (seed n : BitVec 32) (xs : Nat → Xoshiro128p) : Nat → Xoshiro128p :=
  loop (n.toNat - 1) copyJump (Function.update xs 0 (init seed))

/-! ## A state as one word -/

def word (x : Xoshiro128p) : BitVec 128 := x.s3 ++ x.s2 ++ x.s1 ++ x.s0

def ofWord (w : BitVec 128) : Xoshiro128p :=
  { s0 := w.extractLsb' 0 32, s1 := w.extractLsb' 32 32, s2 := w.extractLsb' 64 32,
    s3 := w.extractLsb' 96 32 }

theorem ofWord_word (x : Xoshiro128p) : ofWord x.word = x := by
  obtain ⟨s0, s1, s2, s3⟩ := x
  simp only [ofWord, word, mk.injEq]
  refine ⟨?_, ?_, ?_, ?_⟩ <;>
  · apply BitVec.eq_of_getLsbD_eq
    intro i inside
    simp [inside]
    try grind

theorem word_ofWord (w : BitVec 128) : (ofWord w).word = w := by
  apply BitVec.eq_of_getLsbD_eq
  intro i inside
  simp [ofWord, word]
  grind

theorem word_inj {x y : Xoshiro128p} : x.word = y.word ↔ x = y := by
  refine ⟨fun same => ?_, fun same => same ▸ rfl⟩
  rw [← ofWord_word x, same, ofWord_word]

theorem zero_word : zero.word = 0#128 := by decide

theorem word_xor (x y : Xoshiro128p) : (x.xor y).word = x.word ^^^ y.word := by
  refine Eq.symm (BitVec.xor_append.trans ?_)
  rw [BitVec.xor_append, BitVec.xor_append]
  rfl

theorem ofWord_xor (v w : BitVec 128) : ofWord (v ^^^ w) = (ofWord v).xor (ofWord w) := by
  simp [ofWord, xor, BitVec.extractLsb'_xor]

/-! ## The update is linear -/

theorem rotate_xor (x y : BitVec 32) : (x ^^^ y) <<< 11 ||| (x ^^^ y) >>> (32 - 11) =
    (x <<< 11 ||| x >>> (32 - 11)) ^^^ (y <<< 11 ||| y >>> (32 - 11)) := by
  apply BitVec.eq_of_getLsbD_eq
  intro i inside
  by_cases low : i < 11
  · simp [low]
  · have none : ∀ z : BitVec 32, z.getLsbD (21 + i) = false := fun z =>
      BitVec.getLsbD_of_ge z (21 + i) (by omega)
    simp [low, none, inside]

theorem next_xor (x y : Xoshiro128p) : (x.xor y).next = x.next.xor y.next := by
  have last : x.s3 ^^^ y.s3 ^^^ (x.s1 ^^^ y.s1) = (x.s3 ^^^ x.s1) ^^^ (y.s3 ^^^ y.s1) := by ac_rfl
  simp only [next, xor, last, rotate_xor, mk.injEq, and_true]
  rw [BitVec.shiftLeft_xor_distrib]
  exact ⟨by ac_rfl, by ac_rfl, by ac_rfl⟩

/-- The update of a word. -/
def step (w : BitVec 128) : BitVec 128 := (ofWord w).next.word

theorem step_word (x : Xoshiro128p) : step x.word = x.next.word := by
  rw [step, ofWord_word]

theorem step_iterate (x : Xoshiro128p) (k : Nat) : step^[k] x.word = (next^[k] x).word := by
  induction k with
  | zero => rfl
  | succ k ih => rw [Function.iterate_succ_apply', ih, step_word, Function.iterate_succ_apply']

theorem step_linear : Linear step := by
  intro v w
  rw [step, ofWord_xor, next_xor, word_xor]
  rfl

/-! ## Sums of states -/

section Sums

variable (q : BitVec 128) (x : Xoshiro128p)

/-- One iteration of a loop that adds up the states at the coefficients of `q`. -/
def sumBit (k : Nat) (s : Xoshiro128p × Xoshiro128p) : Xoshiro128p × Xoshiro128p :=
  (if q.getLsbD k then s.1.xor s.2 else s.1, s.2.next)

/-- Before coefficient `k`: the sum so far and the state. -/
structure Summed (k : Nat) (s : Xoshiro128p × Xoshiro128p) : Prop where
  sum : s.1.word = actFrom step q k 0 x.word
  state : s.2 = next^[k] x

theorem summed_start : Summed q x 0 (zero, x) := ⟨zero_word, rfl⟩

variable {q x} in
theorem Summed.next {k : Nat} {s : Xoshiro128p × Xoshiro128p} (before : Summed q x k s) :
    Summed q x (k + 1) (sumBit q k s) := by
  refine ⟨?_, ?_⟩
  · rw [actFrom_succ, ← before.sum, Nat.zero_add, step_iterate, ← before.state, sumBit]
    cases q.getLsbD k with
    | false => rw [if_neg Bool.false_ne_true, if_neg Bool.false_ne_true, BitVec.xor_zero]
    | true => rw [if_pos rfl, if_pos rfl, word_xor]
  · rw [Function.iterate_succ_apply', ← before.state]
    rfl

theorem summed_loop (m : Nat) : Summed q x m (loop m (sumBit q) (zero, x)) :=
  Loops.loop_invariant (Summed q x) (summed_start q x) fun _ _ _ before => before.next

end Sums

/-! ## The characteristic polynomial -/

/-- The lower coefficients of the characteristic polynomial of the update. -/
def characteristic : BitVec 128 := 0x00fc65a2006254b11b489db6de18fc01

/-- The lower coefficients add up to the state after 128 steps. -/
def Vanishes (x : Xoshiro128p) : Prop :=
  (loop 128 (sumBit characteristic) (zero, x)).1 = (loop 128 (sumBit characteristic) (zero, x)).2
  deriving Decidable

theorem vanishes_s0 : ∀ b < 32, Vanishes { zero with s0 := 1#32 <<< b } := by
  decide

theorem vanishes_s1 : ∀ b < 32, Vanishes { zero with s1 := 1#32 <<< b } := by
  decide

theorem vanishes_s2 : ∀ b < 32, Vanishes { zero with s2 := 1#32 <<< b } := by
  decide

theorem vanishes_s3 : ∀ b < 32, Vanishes { zero with s3 := 1#32 <<< b } := by
  decide

/-- A word of one bit has it in one of the four. -/
theorem ofWord_single {i : Nat} (inside : i < 128) : ∃ b < 32,
    ofWord (1#128 <<< i) = { zero with s0 := 1#32 <<< b } ∨
    ofWord (1#128 <<< i) = { zero with s1 := 1#32 <<< b } ∨
    ofWord (1#128 <<< i) = { zero with s2 := 1#32 <<< b } ∨
    ofWord (1#128 <<< i) = { zero with s3 := 1#32 <<< b } := by
  have each : ∀ i < 128, ofWord (1#128 <<< i) = { zero with s0 := 1#32 <<< (i % 32) } ∨
      ofWord (1#128 <<< i) = { zero with s1 := 1#32 <<< (i % 32) } ∨
      ofWord (1#128 <<< i) = { zero with s2 := 1#32 <<< (i % 32) } ∨
      ofWord (1#128 <<< i) = { zero with s3 := 1#32 <<< (i % 32) } := by
    decide
  exact ⟨i % 32, Nat.mod_lt i (by decide), each i inside⟩

/-- **The update is a root of the polynomial.** -/
theorem step_root (w : BitVec 128) : act step characteristic w = step^[128] w := by
  refine (act_state step_linear _).ext (step_linear.iterate 128) (fun i inside => ?_) w
  have vanishes : Vanishes (ofWord (1#128 <<< i)) := by
    obtain ⟨b, bit, same | same | same | same⟩ := ofWord_single inside
    · exact same ▸ vanishes_s0 b bit
    · exact same ▸ vanishes_s1 b bit
    · exact same ▸ vanishes_s2 b bit
    · exact same ▸ vanishes_s3 b bit
  have summed := summed_loop characteristic (ofWord (1#128 <<< i)) 128
  have sum := summed.sum
  rw [vanishes, summed.state, ← step_iterate, word_ofWord] at sum
  exact sum.symm

/-! ## The jump -/

/-- The constants, as one polynomial. -/
def jumpWord : BitVec 128 := 0x77f2db5b6fa035c3f542d2d38764000b

/-- **The constants are the variable squared 64 times.** -/
theorem squares_characteristic : squares characteristic 64 = jumpWord := by
  decide +kernel

theorem jumpWord_bit : ∀ i < 4, ∀ b < 32,
    (JUMP.getD i 0 &&& 1#32 <<< b ≠ 0 ↔ jumpWord.getLsbD (i * 32 + b) = true) := by
  decide

theorem jumpBit_eq {i b : Nat} (constant : i < 4) (bit : b < 32) :
    jumpBit (JUMP.getD i 0) b = sumBit jumpWord (i * 32 + b) := by
  funext s
  simp only [jumpBit, sumBit, jumpWord_bit i constant b bit]

/-- The loops add up the states at the bits of the constants. -/
theorem jump_loops (x : Xoshiro128p) : Summed jumpWord x (JUMP.length * 32)
    (loop JUMP.length (fun i => loop 32 (jumpBit (JUMP.getD i 0))) (zero, x)) := by
  refine Loops.loop_invariant (fun i s => Summed jumpWord x (i * 32) s) (summed_start _ x) ?_
  intro i constant s before
  rw [Nat.succ_mul]
  refine Loops.loop_invariant (fun b s => Summed jumpWord x (i * 32 + b) s) before ?_
  intro b bit s current
  rw [jumpBit_eq constant bit]
  exact current.next

/-- **A jump is 2^64 calls.** -/
theorem jump_eq (x : Xoshiro128p) : jump x = next^[2 ^ 64] x := by
  have sum : (jump x).word = act step jumpWord x.word := (jump_loops x).sum
  have steps := act_squares step_linear step_root (by decide) 64 x.word
  rw [squares_characteristic, ← sum, step_iterate] at steps
  exact word_inj.mp steps

/-! ## Streams -/

theorem copyJump_loop (xs : Nat → Xoshiro128p) (m : Nat) :
    ∀ i ≤ m, loop m copyJump xs i = next^[i * 2 ^ 64] (xs 0) := by
  refine Loops.loop_invariant (fun m (ys : Nat → Xoshiro128p) =>
    ∀ i ≤ m, ys i = next^[i * 2 ^ 64] (xs 0)) ?_ ?_
  · intro i first
    rw [Nat.le_zero.mp first, Nat.zero_mul, Function.iterate_zero, id]
  · intro m _ ys before i below
    rw [copyJump]
    rcases Nat.le_succ_iff.mp below with earlier | rfl
    · rw [Function.update_of_ne (by omega), before i earlier]
    · rw [Function.update_self, before m (Nat.le_refl m), jump_eq, ← Function.iterate_add_apply,
        Nat.succ_mul, Nat.add_comm]

theorem initN_apply (seed n : BitVec 32) (xs : Nat → Xoshiro128p) {i : Nat}
    (inside : i < n.toNat) : initN seed n xs i = next^[i * 2 ^ 64] (init seed) := by
  rw [initN, copyJump_loop _ _ i (by omega), Function.update_self]

theorem shifted_zero {x : BitVec 32} (same : x = x <<< 9) : x = 0 := by
  have thrice : x = x <<< (9 + 9 + 9 + 9) := by
    simp only [BitVec.shiftLeft_add, ← same]
  rw [thrice]
  exact BitVec.shiftLeft_eq_zero (by decide)

theorem rotate_zero {x : BitVec 32} (zeroed : x <<< 11 ||| x >>> (32 - 11) = 0) : x = 0 := by
  apply BitVec.eq_of_getLsbD_eq
  intro i inside
  have place := congrArg (fun z : BitVec 32 => z.getLsbD ((i + 11) % 32)) zeroed
  by_cases low : i < 21
  · have target : (i + 11) % 32 = i + 11 := by omega
    simp [target] at place
    grind
  · have target : (i + 11) % 32 = i - 21 := by omega
    simp [target] at place
    grind

/-- Only the all-zero state is followed by it. -/
theorem next_zero {x : Xoshiro128p} (zeroed : x.next = zero) : x = zero := by
  obtain ⟨s0, s1, s2, s3⟩ := x
  simp only [next, zero, mk.injEq] at zeroed ⊢
  obtain ⟨first, second, third, fourth⟩ := zeroed
  have last : s3 ^^^ s1 = 0 := rotate_zero fourth
  rw [last] at first
  have none : s0 = 0 := by simpa using first
  rw [none] at second third
  have same : s1 = s2 := by simpa [BitVec.xor_eq_zero_iff] using second
  have shifted : s2 = s1 <<< 9 := by simpa [BitVec.xor_eq_zero_iff] using third
  have gone : s1 = 0 := shifted_zero (same.trans shifted)
  rw [gone] at last
  exact ⟨none, gone, same ▸ gone, by simpa using last⟩

theorem next_iterate_zero {x : Xoshiro128p} {k : Nat} (zeroed : next^[k] x = zero) : x = zero := by
  induction k with
  | zero => exact zeroed
  | succ k ih =>
    rw [Function.iterate_succ_apply'] at zeroed
    exact ih (next_zero zeroed)

/-- **A jump skips 2^64 outputs**: the streams of one seed start so far apart, and a stream
enters the all-zero state only from there. -/
theorem jump_ahead :
    (∀ x, jump x = next^[2 ^ 64] x) ∧
    (∀ (seed n : BitVec 32) (xs : Nat → Xoshiro128p), ∀ i < n.toNat,
      initN seed n xs i = next^[i * 2 ^ 64] (init seed)) ∧
    ∀ x, x ≠ zero → ∀ k, next^[k] x ≠ zero :=
  ⟨jump_eq, fun seed n xs _ inside => initN_apply seed n xs inside,
    fun _ started _ zeroed => started (next_iterate_zero zeroed)⟩

end Xoshiro128p

end SnitchCluster.Kernels
