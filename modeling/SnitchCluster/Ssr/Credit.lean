/-
# Ssr.Credit -- the credit counter

`snitch_ssr_credit_counter`: a give and a take in one cycle cancel.  The counter
wraps outside its range; `toNat_next` is what it does inside.
-/
import Mathlib.Algebra.Group.Nat.Defs
import Mathlib.Data.Nat.Log

namespace SnitchCluster.Ssr

/-- `$clog2(NumCredits)+1` bits. -/
abbrev CreditWidth (n : Nat) : Nat := Nat.clog 2 n + 1

/-- `credit_cnt_t`. -/
abbrev Credit (n : Nat) := BitVec (CreditWidth n)

namespace Credit

variable {n : Nat}

/-- `NumCredits`, or nothing with `InitCreditEmpty`. -/
def initial (n : Nat) (empty : Bool) : Credit n := if empty then 0 else BitVec.ofNat _ n

def next (q : Credit n) (reset : Credit n) (give take init : Bool) : Credit n :=
  if init then reset
  else if take && !give then q - 1
  else if !take && give then q + 1
  else q

/-- `credit_left_o`. -/
def left (q : Credit n) : Bool := q != 0

/-- `credit_crit_o`: one more credit fills the counter. -/
def crit (q : Credit n) : Bool := q == BitVec.ofNat _ (n - 1)

/-- `credit_full_o`. -/
def full (q : Credit n) : Bool := q == BitVec.ofNat _ n

/-- The counter can hold all credits. -/
theorem lt_pow_width (n : Nat) : n < 2 ^ CreditWidth n := by
  have reach : n ≤ 2 ^ Nat.clog 2 n := Nat.le_pow_clog (by decide) n
  have positive : 0 < 2 ^ Nat.clog 2 n := Nat.two_pow_pos _
  rw [CreditWidth, Nat.pow_succ]
  omega

theorem toNat_initial (n : Nat) : (initial n false).toNat = n := by
  rw [initial, if_neg Bool.false_ne_true, BitVec.toNat_ofNat, Nat.mod_eq_of_lt (lt_pow_width n)]

theorem left_iff (q : Credit n) : left q = true ↔ 0 < q.toNat := by
  have zero : (0 : Credit n).toNat = 0 := BitVec.toNat_zero
  rw [left, bne_iff_ne, ne_eq, ← BitVec.toNat_inj, zero]
  omega

theorem full_iff (q : Credit n) : full q = true ↔ q.toNat = n := by
  rw [full, beq_iff_eq, ← BitVec.toNat_inj, BitVec.toNat_ofNat,
    Nat.mod_eq_of_lt (lt_pow_width n)]

theorem crit_iff (q : Credit n) : crit q = true ↔ q.toNat = n - 1 := by
  have range := lt_pow_width n
  rw [crit, beq_iff_eq, ← BitVec.toNat_inj, BitVec.toNat_ofNat, Nat.mod_eq_of_lt (by omega)]

theorem toNat_one (n : Nat) : (1 : Credit n).toNat = 1 :=
  Nat.mod_eq_of_lt (Nat.one_lt_two_pow (Nat.succ_ne_zero _))

/-- Neither an underflow nor an overflow. -/
def InRange (q : Credit n) (give take : Bool) : Prop :=
  (take = true → give = false → 0 < q.toNat) ∧ (give = true → take = false → q.toNat < n)

/-- **In range, the counter counts.** -/
theorem toNat_next (q reset : Credit n) {give take : Bool} (inRange : InRange q give take) :
    (next q reset give take false).toNat + take.toNat = q.toNat + give.toNat := by
  obtain ⟨noUnder, noOver⟩ := inRange
  have bound := q.isLt
  cases take with
  | false =>
    cases give with
    | false => simp [next]
    | true =>
      have room := noOver rfl rfl
      have fits := lt_pow_width n
      simp only [next, Bool.false_eq_true, if_false, Bool.not_true, Bool.and_false,
        Bool.not_false, Bool.and_true, if_true, BitVec.toNat_add, toNat_one,
        Bool.toNat_false, Bool.toNat_true, Nat.add_zero]
      rw [Nat.mod_eq_of_lt (by omega)]
  | true =>
    cases give with
    | false =>
      have some := noUnder rfl rfl
      simp only [next, Bool.false_eq_true, if_false, Bool.not_false, Bool.and_true, if_true,
        Bool.toNat_false, Bool.toNat_true, Nat.add_zero]
      rw [BitVec.toNat_sub_of_le (by rw [BitVec.le_def, toNat_one]; exact some), toNat_one]
      omega
    | true => simp [next]

end Credit

end SnitchCluster.Ssr
