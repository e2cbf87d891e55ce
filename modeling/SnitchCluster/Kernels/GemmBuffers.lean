/-
# Kernels.GemmBuffers -- where the buffers of the tiles lie

The addresses that `allocate_buffers` (`sw/kernels/blas/gemm/src/gemm.h`) gives the two sets of
buffers, one after the other or each in banks of its own, and those of the elements in them.  No
two elements overlap (`buffers_apart`), which is why the buffers are different words to a cluster.
-/
import Mathlib.Tactic.Ring
import SnitchCluster.Kernels.GemmTiles

namespace SnitchCluster.Kernels.GemmTiles

open Theory.Loops

/-- The scratchpad, and the next address of its allocator. -/
structure Tcdm where
  start_addr : Nat
  size : Nat
  bank_num : Nat
  hyperbank_num : Nat
  next : Nat

namespace Tcdm

variable (t : Tcdm)

def bank_per_hyperbank_num : Nat := t.bank_num / t.hyperbank_num

def hyperbank_width : Nat := t.bank_per_hyperbank_num * 8

def hyperbank_size : Nat := t.size / t.hyperbank_num

end Tcdm

def snrt_align_up (addr size base : Nat) : Nat := (addr - base + size - 1) / size * size + base

/-- Whose tiles are in a buffer. -/
inductive Matrix
  | a
  | b
  | c
  deriving DecidableEq

namespace GemmArgs

variable (g : GemmArgs) (t : Tcdm)

def tile_elems : Matrix → Nat
  | .a => g.tile_m * g.tile_k
  | .b => g.tile_k * g.tile_n
  | .c => g.tile_m * g.tile_n

def tile_size (x : Matrix) : Nat := g.tile_elems x * g.prec

/-- The address of the buffer `buff` of a matrix. -/
def allocate_buffers (x : Matrix) (buff : Nat) : Nat :=
  let a0 := snrt_align_up t.next t.hyperbank_width t.start_addr
  let banks_per_buffer := g.snrt_cluster_compute_core_num
  if g.partition_banks then
    let b0 := a0 + 8 * banks_per_buffer
    let c0 := b0 + 8 * banks_per_buffer
    let first := match x with
      | .a => a0
      | .b => b0
      | .c => c0
    if buff = 0 then first
    else if t.hyperbank_num = 2 then first + t.hyperbank_size
    else if banks_per_buffer * 6 ≤ t.bank_num then
      let a1 := c0 + 8 * banks_per_buffer
      let b1 := a1 + 8 * banks_per_buffer
      let c1 := b1 + 8 * banks_per_buffer
      match x with
      | .a => a1
      | .b => b1
      | .c => c1
    else first + t.hyperbank_width * (g.tile_size x / (banks_per_buffer * 8))
  else
    let b0 := snrt_align_up (a0 + g.tile_size .a) 8 0
    let c0 := snrt_align_up (b0 + g.tile_size .b) 8 0
    let a1 := snrt_align_up (c0 + g.tile_size .c) 8 0
    let b1 := snrt_align_up (a1 + g.tile_size .a) 8 0
    let c1 := snrt_align_up (b1 + g.tile_size .b) 8 0
    match x with
    | .a => if buff = 0 then a0 else a1
    | .b => if buff = 0 then b0 else b1
    | .c => if buff = 0 then c0 else c1

/-- The address of an element. -/
def address (x : Matrix) (buff e : Nat) : Nat :=
  g.allocate_buffers t x buff +
    if g.partition_banks then
      e / g.elems_per_line * t.hyperbank_width + e % g.elems_per_line * g.prec
    else e * g.prec

end GemmArgs

/-- The banks suffice for the buffers, as `allocate_buffers` assumes, and with two hyperbanks a
tile fits into one. -/
structure Banked (g : GemmArgs) (t : Tcdm) : Prop where
  some_core : 0 < g.snrt_cluster_compute_core_num
  prec : g.prec = 8
  hyperbanks : t.hyperbank_num = 1 ∨ t.hyperbank_num = 2
  banks : 3 * g.snrt_cluster_compute_core_num ≤ t.bank_per_hyperbank_num
  whole : ∀ x, g.snrt_cluster_compute_core_num ∣ g.tile_elems x
  fits : t.hyperbank_num = 2 → ∀ x,
    g.tile_elems x / g.snrt_cluster_compute_core_num * t.hyperbank_width ≤ t.hyperbank_size

/-! ## One after the other -/

section Stacked

variable {g : GemmArgs} {t : Tcdm} {a i j buff : Nat} {x : Matrix}

/-- Whose buffer is the `i`-th. -/
def matrixAt (i : Nat) : Matrix := if i % 3 = 0 then .a else if i % 3 = 1 then .b else .c

def Matrix.idx : Matrix → Nat
  | .a => 0
  | .b => 1
  | .c => 2

theorem Matrix.idx_lt : x.idx < 3 := by
  cases x <;> decide

def order (x : Matrix) (buff : Nat) : Nat := x.idx + if buff = 0 then 0 else 3

/-- The `i`-th buffer. -/
def stacked (g : GemmArgs) (a0 : Nat) : Nat → Nat
  | 0 => a0
  | i + 1 => snrt_align_up (stacked g a0 i + g.tile_size (matrixAt i)) 8 0

theorem matrixAt_order : matrixAt (order x buff) = x := by
  unfold order
  by_cases first : buff = 0
  · cases x <;> rw [if_pos first] <;> rfl
  · cases x <;> rw [if_neg first] <;> rfl

theorem allocate_stacked (plain : ¬g.partition_banks) :
    g.allocate_buffers t x buff =
      stacked g (snrt_align_up t.next t.hyperbank_width t.start_addr) (order x buff) := by
  unfold GemmArgs.allocate_buffers order
  rw [if_neg plain]
  by_cases first : buff = 0
  · cases x <;> simp only [if_pos first] <;> rfl
  · cases x <;> simp only [if_neg first] <;> rfl

theorem le_align_up (addr : Nat) : addr ≤ snrt_align_up addr 8 0 := by
  unfold snrt_align_up
  omega

theorem stacked_le (before : i < j) :
    stacked g a i + g.tile_size (matrixAt i) ≤ stacked g a j := by
  induction j with
  | zero => exact absurd before (Nat.not_lt_zero i)
  | succ j ih =>
    have next := le_align_up (stacked g a j + g.tile_size (matrixAt j))
    rcases Nat.lt_succ_iff_lt_or_eq.mp before with earlier | rfl
    · exact (ih earlier).trans ((Nat.le_add_right _ _).trans next)
    · exact next

end Stacked

/-! ## Each in its own banks -/

section Banks

variable {g : GemmArgs} {t : Tcdm} {buff e : Nat} {x : Matrix}

/-- The place of a buffer in a line. -/
def lane (g : GemmArgs) (t : Tcdm) (x : Matrix) (buff : Nat) : Nat :=
  x.idx +
    if buff ≠ 0 ∧ t.hyperbank_num ≠ 2 ∧ g.snrt_cluster_compute_core_num * 6 ≤ t.bank_num then 3
    else 0

/-- The first line of a buffer. -/
def line (g : GemmArgs) (t : Tcdm) (x : Matrix) (buff : Nat) : Nat :=
  if buff ≠ 0 ∧ t.hyperbank_num ≠ 2 ∧ ¬g.snrt_cluster_compute_core_num * 6 ≤ t.bank_num then
    g.tile_elems x / g.snrt_cluster_compute_core_num
  else 0

/-- An element by line, lane and bank. -/
theorem Banked.address_eq (b : Banked g t) (banked : g.partition_banks) :
    g.address t x buff e = snrt_align_up t.next t.hyperbank_width t.start_addr +
      (if buff ≠ 0 ∧ t.hyperbank_num = 2 then t.hyperbank_size else 0) +
      8 * ((line g t x buff + e / g.snrt_cluster_compute_core_num) * t.bank_per_hyperbank_num +
        (lane g t x buff * g.snrt_cluster_compute_core_num + e % g.snrt_cluster_compute_core_num)) := by
  have elems : g.elems_per_line = g.snrt_cluster_compute_core_num := by
    rw [GemmArgs.elems_per_line, b.prec, Nat.mul_div_cancel _ (by decide)]
  have lines : g.tile_size x / (g.snrt_cluster_compute_core_num * 8) =
      g.tile_elems x / g.snrt_cluster_compute_core_num := by
    rw [GemmArgs.tile_size, b.prec]
    exact Nat.mul_div_mul_right _ _ (by decide)
  unfold GemmArgs.address GemmArgs.allocate_buffers line lane
  rw [elems, b.prec, Tcdm.hyperbank_width]
  by_cases first : buff = 0
  · cases x <;> simp [banked, first, Matrix.idx] <;> ring
  · by_cases two : t.hyperbank_num = 2
    · cases x <;> simp [banked, first, two, Matrix.idx] <;> ring
    · by_cases six : g.snrt_cluster_compute_core_num * 6 ≤ t.bank_num
      · cases x <;> simp [banked, first, two, six, Matrix.idx] <;> ring
      · cases x <;> simp [banked, first, two, six, lines, Matrix.idx] <;> ring

theorem Banked.lane_le (b : Banked g t) :
    (lane g t x buff + 1) * g.snrt_cluster_compute_core_num ≤ t.bank_per_hyperbank_num := by
  have three := b.banks
  have few : lane g t x buff < 3 ∨ (lane g t x buff < 6 ∧
      g.snrt_cluster_compute_core_num * 6 ≤ t.bank_per_hyperbank_num) := by
    have idx := Matrix.idx_lt (x := x)
    unfold lane
    split
    · next six =>
        have one := b.hyperbanks.resolve_right six.2.1
        have banks := six.2.2
        rw [← Nat.div_one t.bank_num, ← one] at banks
        exact .inr ⟨by omega, banks⟩
    · exact .inl (by omega)
  rcases few with below | ⟨below, six⟩
  · exact (Nat.mul_le_mul_right _ below).trans three
  · exact (Nat.mul_le_mul_right _ below).trans (by rwa [Nat.mul_comm])

end Banks

/-! ## No two elements overlap -/

section Apart

variable {g : GemmArgs} {t : Tcdm} {x x' : Matrix} {buff buff' e e' : Nat}

theorem stacked_apart (plain : ¬g.partition_banks) (set : buff < 2) (set' : buff' < 2)
    (inside : e < g.tile_elems x) (inside' : e' < g.tile_elems x')
    (other : (x, buff, e) ≠ (x', buff', e')) :
    g.address t x buff e + g.prec ≤ g.address t x' buff' e' ∨
      g.address t x' buff' e' + g.prec ≤ g.address t x buff e := by
  have within : ∀ {x e}, e < g.tile_elems x → e * g.prec + g.prec ≤ g.tile_size x := by
    intro x e inside
    rw [← Nat.succ_mul]
    exact Nat.mul_le_mul_right _ inside
  unfold GemmArgs.address
  rw [if_neg plain, if_neg plain, allocate_stacked plain, allocate_stacked plain]
  generalize snrt_align_up t.next t.hyperbank_width t.start_addr = a0
  have fits := within inside
  have fits' := within inside'
  rcases Nat.lt_trichotomy (order x buff) (order x' buff') with before | same | after
  · have next := stacked_le (g := g) (a := a0) before
    rw [matrixAt_order] at next
    exact .inl (by omega)
  · obtain rfl : x = x' := by rw [← matrixAt_order (x := x), same, matrixAt_order]
    obtain rfl : buff = buff' := by
      unfold order at same
      split at same <;> split at same <;> omega
    rcases Nat.lt_or_gt_of_ne (fun same : e = e' => other (by rw [same])) with before | after
    · have next := Nat.mul_le_mul_right g.prec before
      rw [Nat.succ_mul] at next
      exact .inl (by omega)
    · have next := Nat.mul_le_mul_right g.prec after
      rw [Nat.succ_mul] at next
      exact .inr (by omega)
  · have next := stacked_le (g := g) (a := a0) after
    rw [matrixAt_order] at next
    exact .inr (by omega)

theorem Matrix.idx_inj (same : x.idx = x'.idx) : x = x' := by
  cases x <;> cases x' <;> first | rfl | cases same

/-- Elements of one set of buffers, or of both in one hyperbank, are at different places. -/
theorem Banked.place_inj (b : Banked g t) (set : buff < 2) (set' : buff' < 2)
    (inside : e < g.tile_elems x) (inside' : e' < g.tile_elems x')
    (together : t.hyperbank_num = 2 → buff = buff')
    (same : (line g t x buff + e / g.snrt_cluster_compute_core_num) * t.bank_per_hyperbank_num +
        (lane g t x buff * g.snrt_cluster_compute_core_num + e % g.snrt_cluster_compute_core_num) =
      (line g t x' buff' + e' / g.snrt_cluster_compute_core_num) * t.bank_per_hyperbank_num +
        (lane g t x' buff' * g.snrt_cluster_compute_core_num +
          e' % g.snrt_cluster_compute_core_num)) : (x, buff, e) = (x', buff', e') := by
  have bank : ∀ e, e % g.snrt_cluster_compute_core_num < g.snrt_cluster_compute_core_num :=
    fun e => Nat.mod_lt e b.some_core
  have place : ∀ x buff e, lane g t x buff * g.snrt_cluster_compute_core_num +
      e % g.snrt_cluster_compute_core_num < t.bank_per_hyperbank_num := fun x buff e =>
    Nat.lt_of_lt_of_le (grid_lt (Nat.lt_succ_self _) (bank e)) b.lane_le
  obtain ⟨lines, places⟩ := grid_inj (place x buff e) (place x' buff' e') same
  obtain ⟨lanes, banks⟩ := grid_inj (bank e) (bank e') places
  have idx := Matrix.idx_lt (x := x)
  have idx' := Matrix.idx_lt (x := x')
  have element : e / g.snrt_cluster_compute_core_num = e' / g.snrt_cluster_compute_core_num →
      e = e' := fun quotient => by
    rw [← Nat.div_add_mod e g.snrt_cluster_compute_core_num, quotient, banks, Nat.div_add_mod]
  unfold lane at lanes
  unfold line at lines
  by_cases two : t.hyperbank_num = 2
  · obtain rfl := together two
    simp only [two, ne_eq, not_true_eq_false, false_and, and_false, if_false, Nat.add_zero,
      Nat.zero_add] at lanes lines
    rw [Matrix.idx_inj lanes, element lines]
  · by_cases six : g.snrt_cluster_compute_core_num * 6 ≤ t.bank_num
    · simp only [two, six, ne_eq, not_false_eq_true, not_true_eq_false, and_true, and_false,
        if_false, Nat.zero_add] at lanes lines
      have sets : buff = buff' := by
        split at lanes <;> split at lanes <;> omega
      obtain rfl := sets
      rw [Matrix.idx_inj (Nat.add_right_cancel lanes), element lines]
    · simp only [two, six, ne_eq, not_false_eq_true, and_true, and_false, if_false,
        Nat.add_zero] at lanes lines
      obtain rfl := Matrix.idx_inj lanes
      have below := Nat.div_lt_div_of_lt_of_dvd (b.whole x) inside
      have below' := Nat.div_lt_div_of_lt_of_dvd (b.whole x) inside'
      have some := Nat.zero_le (e / g.snrt_cluster_compute_core_num)
      have some' := Nat.zero_le (e' / g.snrt_cluster_compute_core_num)
      have sets : buff = buff' := by
        split at lines <;> split at lines <;> omega
      obtain rfl := sets
      rw [element (Nat.add_left_cancel lines)]

/-- With two hyperbanks the first set ends before the second begins. -/
theorem Banked.first_set (b : Banked g t) (two : t.hyperbank_num = 2)
    (inside : e < g.tile_elems x) :
    8 * ((line g t x 0 + e / g.snrt_cluster_compute_core_num) * t.bank_per_hyperbank_num +
      (lane g t x 0 * g.snrt_cluster_compute_core_num + e % g.snrt_cluster_compute_core_num)) + 8 ≤
      t.hyperbank_size := by
  have bank := Nat.mod_lt e b.some_core
  have place := Nat.lt_of_lt_of_le (grid_lt (Nat.lt_succ_self (lane g t x 0)) bank) b.lane_le
  have row := Nat.div_lt_div_of_lt_of_dvd (b.whole x) inside
  have first : line g t x 0 = 0 := if_neg fun second => second.1 rfl
  have within := grid_lt row place
  have fits := b.fits two x
  rw [Tcdm.hyperbank_width, ← Nat.mul_assoc] at fits
  rw [first, Nat.zero_add]
  omega

theorem Banked.apart (b : Banked g t) (banked : g.partition_banks) (set : buff < 2) (set' : buff' < 2)
    (inside : e < g.tile_elems x) (inside' : e' < g.tile_elems x')
    (other : (x, buff, e) ≠ (x', buff', e')) :
    g.address t x buff e + g.prec ≤ g.address t x' buff' e' ∨
      g.address t x' buff' e' + g.prec ≤ g.address t x buff e := by
  rw [b.address_eq banked, b.address_eq banked, b.prec]
  by_cases together : t.hyperbank_num = 2 → buff = buff'
  · have offset : (if buff ≠ 0 ∧ t.hyperbank_num = 2 then t.hyperbank_size else 0) =
        if buff' ≠ 0 ∧ t.hyperbank_num = 2 then t.hyperbank_size else 0 := by
      by_cases two : t.hyperbank_num = 2
      · rw [together two]
      · rw [if_neg fun second => two second.2, if_neg fun second => two second.2]
    rw [offset]
    rcases Nat.lt_or_gt_of_ne fun same => other (b.place_inj set set' inside inside' together same)
      with before | after
    · exact .inl (by omega)
    · exact .inr (by omega)
  · obtain ⟨two, sets⟩ := Classical.not_imp.mp together
    rcases (by omega : buff = 0 ∧ buff' = 1 ∨ buff = 1 ∧ buff' = 0) with ⟨rfl, rfl⟩ | ⟨rfl, rfl⟩
    · have first := b.first_set two inside
      rw [if_neg fun second => second.1 rfl, if_pos ⟨Nat.one_ne_zero, two⟩]
      omega
    · have first := b.first_set two inside'
      rw [if_neg fun second : 0 ≠ 0 ∧ _ => second.1 rfl, if_pos ⟨Nat.one_ne_zero, two⟩]
      omega

/-- **The elements of the buffers do not overlap.** -/
theorem buffers_apart (banks : g.partition_banks → Banked g t) (set : buff < 2) (set' : buff' < 2)
    (inside : e < g.tile_elems x) (inside' : e' < g.tile_elems x')
    (other : (x, buff, e) ≠ (x', buff', e')) :
    g.address t x buff e + g.prec ≤ g.address t x' buff' e' ∨
      g.address t x' buff' e' + g.prec ≤ g.address t x buff e := by
  by_cases banked : g.partition_banks = true
  · exact (banks banked).apart banked set set' inside inside' other
  · exact stacked_apart banked set set' inside inside' other

end Apart

end SnitchCluster.Kernels.GemmTiles
