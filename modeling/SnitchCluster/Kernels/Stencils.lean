/-
# Kernels.Stencils -- box stencils in three dimensions

The naive kernels add up the neighbourhood of one grid point after the other.  The optimised ones
take two points of two rows at a time: two streams deliver their neighbourhoods by index, and four
sums are interleaved -- in four registers (`box3d1r_baseline4`), or all in `fa0`, which is a queue
(`box3d1r_opt2`, `j3d27pt_opt2`).

A sum is known by its grid point and the number of its terms (`sumAt`), whatever the arithmetic.  A
row of four instructions takes the sums of the four points from the queue and puts them back in the
same order with one more term (`row_runs`), so each sum is taken once, for its own point.
-/
import Mathlib.Algebra.Field.Defs
import SnitchCluster.Kernels.ChainedFpu
import SnitchCluster.Kernels.StreamJobs

namespace SnitchCluster.Kernels.Stencils

open Blas ChainedFpu StreamJobs Theory.Loops Theory.Straight

/-! ## The code -/

section Code

variable {V : Type}

/-- The offset of a neighbour. -/
def point (nx ny z y x : Nat) : Nat := z * (ny * nx) + y * nx + x

/-- The indices `i0` and `i1`, as they are stored. -/
def indices (r nx ny s s' : Nat) : List Nat :=
  (List.range (2 * r + 1)).flatMap fun z => (List.range (2 * r + 1)).flatMap fun y =>
    (List.range (2 * r + 1)).flatMap fun x =>
      [(point nx ny z y x + s) % 2 ^ 16, (point nx ny z y x + s') % 2 ^ 16]

def sx : Nat := 1

def sy (nx : Nat) : Nat := nx

def sb (nx : Nat) : Nat := sy nx + sx

def i0 (r nx ny : Nat) : List Nat := indices r nx ny 0 (sy nx)

def i1 (r nx ny : Nat) : List Nat := indices r nx ny sx (sb nx)

def npoints (r : Nat) : Nat := (2 * r + 1) * (2 * r + 1) * (2 * r + 1)

def ilen (r : Nat) : Nat := 2 * npoints r

/-- `snrt_issr_set_ptrs`: the elements that a list of indices selects. -/
def gathered (A : Nat → V) (base bound : Nat) (idcs : List Nat) : List V :=
  (List.range (iterations bound)).map fun n => A (base + idcs.getD n 0)

/-- `&A[z * ny * nx + y * nx + x]` -/
def corner (nx ny z y x : Nat) : Nat := z * ny * nx + y * nx + x

/-- The jobs that deliver the neighbourhoods of four points. -/
def setPtrs (r nx ny : Nat) (A : Nat → V) (p : Nat) : List (Instr V) :=
  [.read 0 (gathered A p (ilen r) (i0 r nx ny)), .read 1 (gathered A p (ilen r) (i1 r nx ny))]

/-- The registers that hold the coefficients. -/
def coefficients : List Nat :=
  [ft 3, ft 4, ft 5, ft 6, ft 7, ft 8, ft 9, ft 10, ft 11, fs 0, fs 1, fs 2, fs 3, fs 4, fs 5, fs 6,
    fs 7, fs 8, fs 9, fs 10, fs 11, fa 1, fa 2, fa 3, fa 4, fa 5, fa 6]

def coefficient (n : Nat) : Nat := coefficients.getD n 0

def loads (c : Nat → V) : List (Instr V) :=
  (List.range 27).map fun n => .fld (coefficient n) (c n)

/-- Four instructions, for the points in the order in which the streams deliver them. -/
def quad (f : Nat → Instr V) : List (Instr V) := [f (ft 0), f (ft 1), f (ft 0), f (ft 1)]

/-- The rows that put sums of `n + 1` terms into the queue. -/
def chain (n : Nat) : List (Instr V) :=
  quad (fun point => .fmul (fa 0) (ft 3) point) ++
    (List.range n).flatMap fun k =>
      quad fun point => .fmadd (fa 0) (coefficient (k + 1)) point (fa 0)

/-- The loops over `z`, `y` and `x`, two rows and two columns at a time. -/
def blocks (r nx ny nz : Nat) (block : Nat → Nat → Nat → List (Instr V)) :
    List (List (Instr V)) :=
  (List.range (nz - 2 * r)).flatMap fun z =>
    (stepped 0 (ny - 2 * r) 2).flatMap fun y =>
      (stepped 0 (nx - 2 * r) 2).map fun x => block z y x

/-- The job of the writing stream, launched with the first block of two rows. -/
def writeBack (r nx ny z y x : Nat) : List (Instr V) :=
  if x = 0 then
    [.write 2 (streamed [((nx - 2 * r) / 2, 2), (2, nx), (2, 1)]
      ((z + 1) * ny * nx + (y + 1) * nx + (x + 1)))]
  else []

def box3d1r_opt2 (r nx ny nz : Nat) (c A : Nat → V) : Kernel V where
  prologue := loads c ++ [.ssr true, .sc_enable 0x400]
  blocks := blocks r nx ny nz fun z y x =>
    setPtrs r nx ny A (corner nx ny z y x) ++ writeBack r nx ny z y x ++
      chain 25 ++ quad fun point => .fmadd (ft 2) (fa 6) point (fa 0)
  epilogue := [.sc_disable 0x400, .ssr false]

/-- `fact` is `1.0 / fac`. -/
def j3d27pt_opt2 (fact : V) (nx ny nz : Nat) (c A : Nat → V) : Kernel V where
  prologue := .fld (fa 7) fact :: loads c ++ [.ssr true, .sc_enable 0x400]
  blocks := blocks 1 nx ny nz fun z y x =>
    setPtrs 1 nx ny A (corner nx ny z y x) ++ writeBack 1 nx ny z y x ++
      chain 26 ++ List.replicate (3 + 1) (.fmul (ft 2) (fa 7) (fa 0))
  epilogue := [.sc_disable 0x400, .ssr false]

/-- Where the coefficients in `ca` come from. -/
def copied (r : Nat) : List Nat :=
  (List.range (2 * r + 1)).flatMap fun z => (List.range (2 * r + 1)).flatMap fun y =>
    (List.range (2 * r + 1)).map fun x => z * (2 * r + 1) * (2 * r + 1) + y * (2 * r + 1) + x

/-- The job of the stream of coefficients, launched with the first block of two rows. -/
def readBack (r nx : Nat) (c : Nat → V) (x : Nat) : List (Instr V) :=
  if x = 0 then
    [.read 2 ((repeated 4 (streamed [((nx - 2 * r) / 2, 0), (npoints r, 1)] 0)).map fun n =>
      c ((copied r).getD n 0))]
  else []

/-- Four instructions on four registers. -/
def four (f : Nat → Nat → Instr V) : List (Instr V) :=
  [f (fa 0) (ft 0), f (fa 1) (ft 1), f (fa 2) (ft 0), f (fa 3) (ft 1)]

def box3d1r_baseline4 (r nx ny nz : Nat) (c A : Nat → V) : Kernel V where
  prologue := [.ssr true]
  blocks := blocks r nx ny nz fun z y x =>
    let wb := (z + r) * ny * nx + (y + r) * nx + (x + r)
    setPtrs r nx ny A (corner nx ny z y x) ++ readBack r nx c x ++
      four (fun sum point => .fmul sum (ft 2) point) ++
      (List.range (npoints r - 2 + 1)).flatMap (fun _ =>
        four fun sum point => .fmadd sum (ft 2) point sum) ++
      [.fsd (fa 0) wb, .fsd (fa 1) (wb + sx), .fsd (fa 2) (wb + sy nx), .fsd (fa 3) (wb + sb nx)]
  epilogue := [.ssr false]

end Code

/-! ### The naive kernels -/

section Naive

variable {F : Type} [Semiring F]

/-- The sum at a grid point; the loops start at `-r`. -/
def neighbourhood (r nx ny : Nat) (c A : Nat → F) (z y x : Nat) : F :=
  loop (2 * r + 1) (fun dz => loop (2 * r + 1) fun dy => loop (2 * r + 1) fun dx acc =>
    acc + c (dz * (2 * r + 1) * (2 * r + 1) + dy * (2 * r + 1) + dx) *
      A ((z + dz - r) * ny * nx + (y + dy - r) * nx + (x + dx - r))) 0

/-- The loops over the inner grid points. -/
def eachPoint (r nx ny nz : Nat) (value : Nat → Nat → Nat → F) (A_ : Nat → F) : Nat → F :=
  loop (nz - r - r) (fun z => loop (ny - r - r) fun y => loop (nx - r - r) fun x m =>
    Function.update m ((z + r) * ny * nx + (y + r) * nx + (x + r))
      (value (z + r) (y + r) (x + r))) A_

def box3d1r_naive (r nx ny nz : Nat) (c A A_ : Nat → F) : Nat → F :=
  eachPoint r nx ny nz (neighbourhood r nx ny c A) A_

/-- `fact` is `1.0 / fac`. -/
def j3d27pt_naive (fact : F) (nx ny nz : Nat) (c A A_ : Nat → F) : Nat → F :=
  eachPoint 1 nx ny nz (fun z y x => fact * neighbourhood 1 nx ny c A z y x) A_

end Naive

/-! ## Sums -/

section Sums

variable {V : Type} (ops : Arith V) (c A : Nat → V) (nx ny : Nat)

/-- The offset of neighbour `n` of 27. -/
def neighbour (n : Nat) : Nat := point nx ny (n / 9) (n / 3 % 3) (n % 3)

/-- The first `n + 1` terms of the sum whose neighbourhood starts at `p`. -/
def sumAt (p : Nat) : Nat → V
  | 0 => ops.mul (c 0) (A (p + neighbour nx ny 0))
  | n + 1 => ops.madd (c (n + 1)) (A (p + neighbour nx ny (n + 1))) (sumAt p n)

/-- Where the neighbourhoods of a block start. -/
def starts (p : Nat) : List Nat := [p, p + sx, p + sy nx, p + sb nx]

/-- What a block takes from the queue while the sums get `n` more terms: each sum once, for the
next term of the same point. -/
def popped (p n : Nat) : List (V × V) :=
  (List.range n).flatMap fun k => (starts nx p).map fun q =>
    (sumAt ops c A nx ny q k, sumAt ops c A nx ny q (k + 1))

/-- The words of a stream, from term `k` on. -/
def rest (q q' k n : Nat) : List V :=
  (List.range' k n).flatMap fun i => [A (q + neighbour nx ny i), A (q' + neighbour nx ny i)]

variable {A nx ny}

@[simp] theorem rest_zero (q q' k : Nat) : rest A nx ny q q' k 0 = [] := rfl

theorem rest_succ (q q' k n : Nat) : rest A nx ny q q' k (n + 1) =
    A (q + neighbour nx ny k) :: A (q' + neighbour nx ny k) :: rest A nx ny q q' (k + 1) n := by
  simp [rest, List.range'_succ]

theorem gathered_eq {base bound : Nat} {idcs : List Nat} (length : idcs.length = bound)
    (some : 0 < bound) (few : bound ≤ 2 ^ 32) :
    gathered A base bound idcs = idcs.map fun i => A (base + i) := by
  rw [gathered, iterations_eq some few, ← length]
  refine List.ext_getElem (by simp) fun n small small' => ?_
  have inside : n < idcs.length := by simpa using small'
  simp [List.getD_eq_getElem?_getD, inside]

theorem indices_eq (s s' : Nat) : indices 1 nx ny s s' = (List.range 27).flatMap fun n =>
    [(neighbour nx ny n + s) % 2 ^ 16, (neighbour nx ny n + s') % 2 ^ 16] := rfl

theorem neighbour_le {n : Nat} (small : n < 27) :
    neighbour nx ny n ≤ 2 * (ny * nx) + 2 * nx + 2 := by
  have z : n / 9 ≤ 2 := by omega
  have y : n / 3 % 3 ≤ 2 := by omega
  have x : n % 3 ≤ 2 := by omega
  exact Nat.add_le_add (Nat.add_le_add (Nat.mul_le_mul_right _ z) (Nat.mul_le_mul_right _ y)) x

/-- All indices fit 16 bits. -/
def Fits (nx ny : Nat) : Prop := 2 * (ny * nx) + 2 * nx + 2 + sb nx < 2 ^ 16

instance (nx ny : Nat) : Decidable (Fits nx ny) := inferInstanceAs (Decidable (_ < _))

theorem gathered_points (fits : Fits nx ny) {s s' : Nat} (near : s ≤ sb nx) (near' : s' ≤ sb nx)
    (p : Nat) : gathered A p (ilen 1) (indices 1 nx ny s s') =
      rest A nx ny (p + s) (p + s') 0 27 := by
  have length : (indices 1 nx ny s s').length = ilen 1 := rfl
  rw [gathered_eq length (by decide) (by decide), indices_eq, rest, List.map_flatMap,
    ← List.range_eq_range']
  refine List.flatMap_congr fun n member => ?_
  have bound : neighbour nx ny n ≤ 2 * (ny * nx) + 2 * nx + 2 :=
    neighbour_le (List.mem_range.mp member)
  rw [Fits] at fits
  rw [Nat.mod_eq_of_lt (by omega), Nat.mod_eq_of_lt (by omega)]
  simp only [List.map_cons, List.map_nil]
  rw [Nat.add_comm _ s, Nat.add_comm _ s', Nat.add_assoc, Nat.add_assoc]

end Sums

/-! ## Rows of four instructions -/

section Rows

variable {V : Type} {ops : Arith V} {R : Nat → V} {k : Nat} {w0 w1 w2 : List V} {sl : List Nat}
  {g : Nat → V} {l : List (V × V)} {a0 a1 a2 a3 v0 v1 v2 v3 : V} {e0 e1 e2 e3 : Nat}

theorem first_row (plain : Plain mask k) :
    run (exec ops) (quad fun point => .fmul (fa 0) k point)
        (view mask R [] (a0 :: a2 :: w0) (a1 :: a3 :: w1) w2 sl g l) =
      some (view mask R [ops.mul (R k) a0, ops.mul (R k) a1, ops.mul (R k) a2, ops.mul (R k) a3]
        w0 w1 w2 sl g l) := by
  simp [quad, run, exec, ft, plain.take, take_ft0, take_ft1, give_fa0, note_view, plain.chained,
    stream_chained]

theorem next_row (plain : Plain mask k) :
    run (exec ops) (quad fun point => .fmadd (fa 0) k point (fa 0))
        (view mask R [v0, v1, v2, v3] (a0 :: a2 :: w0) (a1 :: a3 :: w1) w2 sl g l) =
      some (view mask R
        [ops.madd (R k) a0 v0, ops.madd (R k) a1 v1, ops.madd (R k) a2 v2, ops.madd (R k) a3 v3]
        w0 w1 w2 sl g
        (l ++ [(v0, ops.madd (R k) a0 v0), (v1, ops.madd (R k) a1 v1),
          (v2, ops.madd (R k) a2 v2), (v3, ops.madd (R k) a3 v3)])) := by
  simp [quad, run, exec, ft, plain.take, take_ft0, take_ft1, take_fa0, give_fa0, note_view,
    plain.chained, stream_chained, fa0_chained]

/-- Four elements of the grid. -/
def stored (g : Nat → V) (e0 e1 e2 e3 : Nat) (v0 v1 v2 v3 : V) : Nat → V :=
  Function.update (Function.update (Function.update (Function.update g e0 v0) e1 v1) e2 v2) e3 v3

theorem last_row (plain : Plain mask k) :
    run (exec ops) (quad fun point => .fmadd (ft 2) k point (fa 0))
        (view mask R [v0, v1, v2, v3] (a0 :: a2 :: w0) (a1 :: a3 :: w1) w2
          (e0 :: e1 :: e2 :: e3 :: sl) g l) =
      some (view mask R [] w0 w1 w2 sl
        (stored g e0 e1 e2 e3 (ops.madd (R k) a0 v0) (ops.madd (R k) a1 v1)
          (ops.madd (R k) a2 v2) (ops.madd (R k) a3 v3))
        (l ++ [(v0, ops.madd (R k) a0 v0), (v1, ops.madd (R k) a1 v1),
          (v2, ops.madd (R k) a2 v2), (v3, ops.madd (R k) a3 v3)])) := by
  simp [quad, run, exec, ft, plain.take, take_ft0, take_ft1, take_fa0, give_ft2, note_view,
    plain.chained, stream_chained, fa0_chained, stored]

theorem scaled_row (plain : Plain mask k) :
    run (exec ops) (List.replicate (3 + 1) (.fmul (ft 2) k (fa 0)))
        (view mask R [v0, v1, v2, v3] w0 w1 w2 (e0 :: e1 :: e2 :: e3 :: sl) g l) =
      some (view mask R [] w0 w1 w2 sl
        (stored g e0 e1 e2 e3 (ops.mul (R k) v0) (ops.mul (R k) v1) (ops.mul (R k) v2)
          (ops.mul (R k) v3))
        (l ++ [(v0, ops.mul (R k) v0), (v1, ops.mul (R k) v1), (v2, ops.mul (R k) v2),
          (v3, ops.mul (R k) v3)])) := by
  simp [run, exec, ft, plain.take, take_fa0, give_ft2, note_view, plain.chained, fa0_chained,
    stored, List.replicate]

/-- The registers hold the coefficients. -/
def Loaded (c : Nat → V) (R : Nat → V) : Prop := ∀ n < 27, R (coefficient n) = c n

theorem plain_coefficient : ∀ n < 27, Plain mask (coefficient n) := by decide

variable {c A : Nat → V} {nx ny : Nat}

/-- The queue holds the sums of the four points, in the order of the instructions. -/
def summed (ops : Arith V) (c A : Nat → V) (nx ny p n : Nat) : List V :=
  (starts nx p).map fun q => sumAt ops c A nx ny q n

theorem popped_succ (p n : Nat) : popped ops c A nx ny p (n + 1) =
    popped ops c A nx ny p n ++ (starts nx p).map fun q =>
      (sumAt ops c A nx ny q n, sumAt ops c A nx ny q (n + 1)) := by
  rw [popped, List.range_succ, List.flatMap_append, List.flatMap_singleton, popped]

/-- The words of the two streams of a block, from term `k` on. -/
def words0 (A : Nat → V) (nx ny p k n : Nat) : List V := rest A nx ny p (p + sy nx) k n

def words1 (A : Nat → V) (nx ny p k n : Nat) : List V :=
  rest A nx ny (p + sx) (p + sb nx) k n

theorem words0_succ (p k n : Nat) : words0 A nx ny p k (n + 1) =
    A (p + neighbour nx ny k) :: A (p + sy nx + neighbour nx ny k) ::
      words0 A nx ny p (k + 1) n := rest_succ _ _ _ _

theorem words1_succ (p k n : Nat) : words1 A nx ny p k (n + 1) =
    A (p + sx + neighbour nx ny k) :: A (p + sb nx + neighbour nx ny k) ::
      words1 A nx ny p (k + 1) n := rest_succ _ _ _ _

/-- **The queue holds sums of the four points**, one term longer after every row. -/
theorem chain_runs (loaded : Loaded c R) (p : Nat) {n m : Nat} (few : n < 27) :
    run (exec ops) (chain n)
        (view mask R [] (words0 A nx ny p 0 (n + m + 1)) (words1 A nx ny p 0 (n + m + 1))
          w2 sl g l) =
      some (view mask R (summed ops c A nx ny p n) (words0 A nx ny p (n + 1) m)
        (words1 A nx ny p (n + 1) m) w2 sl g (l ++ popped ops c A nx ny p n)) := by
  have first : R (ft 3) = c 0 := loaded 0 (by decide)
  have plain : Plain mask (ft 3) := plain_coefficient 0 (by decide)
  -- after `k` rows
  let S (k : Nat) : State V :=
    view mask R (summed ops c A nx ny p k) (words0 A nx ny p (k + 1) (n - k + m))
      (words1 A nx ny p (k + 1) (n - k + m)) w2 sl g (l ++ popped ops c A nx ny p k)
  have rows : run (exec ops) ((List.range n).flatMap fun k =>
      quad fun point => .fmadd (fa 0) (coefficient (k + 1)) point (fa 0)) (S 0) = some (S n) := by
    refine run_range S fun k small => ?_
    obtain ⟨d, left⟩ : ∃ d, n - k + m = d + 1 ∧ n - (k + 1) + m = d := ⟨n - (k + 1) + m, by omega⟩
    simp only [S, left, words0_succ, words1_succ, popped_succ, ← List.append_assoc]
    simp only [summed, starts, List.map_cons, List.map_nil, sumAt, ← loaded (k + 1) (by omega)]
    exact next_row (plain_coefficient (k + 1) (by omega))
  have last : S n = view mask R (summed ops c A nx ny p n) (words0 A nx ny p (n + 1) m)
      (words1 A nx ny p (n + 1) m) w2 sl g (l ++ popped ops c A nx ny p n) := by
    simp only [S, Nat.sub_self, Nat.zero_add]
  rw [chain, words0_succ, words1_succ, run_append_of (first_row plain), ← last, ← rows]
  simp [S, summed, starts, sumAt, popped, first]

end Rows

/-! ## Blocks -/

section Blocks

variable {V : Type} {ops : Arith V} {sc : BitVec 32} {R : Nat → V} {w0 w1 w2 : List V}
  {sl : List Nat} {g : Nat → V} {l : List (V × V)} {c A : Nat → V} {nx ny z y i : Nat}

/-- From the start of a neighbourhood to its grid point. -/
def centre (nx ny : Nat) : Nat := ny * nx + nx + 1

/-- What a block leaves, `value` being the result by the start of the neighbourhood. -/
def put (value : Nat → V) (nx ny p : Nat) (g : Nat → V) : Nat → V :=
  stored g (p + centre nx ny) (p + centre nx ny + sx) (p + centre nx ny + sy nx)
    (p + centre nx ny + sb nx) (value p) (value (p + sx)) (value (p + sy nx)) (value (p + sb nx))

/-- The grid points of two rows, from block `i` on. -/
def rowSlots (nx b i n : Nat) : List Nat :=
  (List.range' i n).flatMap fun q => starts nx (b + q * 2)

theorem rowSlots_succ (b i n : Nat) : rowSlots nx b i (n + 1) =
    starts nx (b + i * 2) ++ rowSlots nx b (i + 1) n := by
  simp [rowSlots, List.range'_succ]

theorem writeBack_streamed {W b : Nat} (some : 0 < W) (few : W ≤ 2 ^ 32) :
    streamed [(W, 2), (2, nx), (2, 1)] b = rowSlots nx b 0 W := by
  have two : iterations 2 = 2 := rfl
  simp only [streamed, iterations_eq some few, two, rowSlots, ← List.range_eq_range']
  refine List.flatMap_congr fun q _ => ?_
  simp [List.range_succ, starts, sx, sy, sb, Nat.add_assoc]

/-- How many blocks make two rows. -/
def width (nx : Nat) : Nat := (nx - 2 * 1) / 2

/-- The first grid point of two rows. -/
def rowStart (nx ny z y : Nat) : Nat := corner nx ny z y 0 + centre nx ny

theorem rowStart_eq (nx ny z y i : Nat) :
    rowStart nx ny z y + i * 2 = corner nx ny z y (i * 2) + centre nx ny := by
  simp only [rowStart, corner]
  omega

theorem rowStart_address (nx ny z y : Nat) :
    (z + 1) * ny * nx + (y + 1) * nx + (0 + 1) = rowStart nx ny z y := by
  simp only [rowStart, corner, centre]
  ring

theorem setPtrs_runs (fits : Fits nx ny) (p : Nat) {f : List V} :
    run (exec ops) (setPtrs 1 nx ny A p) (view sc R f [] [] w2 sl g l) =
      some (view sc R f (words0 A nx ny p 0 27) (words1 A nx ny p 0 27) w2 sl g l) := by
  have first : gathered A p (ilen 1) (i0 1 nx ny) = words0 A nx ny p 0 27 :=
    gathered_points fits (Nat.zero_le _) (Nat.le_add_right _ _) p
  have second : gathered A p (ilen 1) (i1 1 nx ny) = words1 A nx ny p 0 27 :=
    gathered_points fits (Nat.le_add_left _ _) (Nat.le_refl _) p
  simp [setPtrs, run, exec, first, second, view, three]

/-- The slots before block `i` of two rows: the job comes with the first block. -/
def slotsBefore (nx ny z y i : Nat) : List Nat :=
  if i = 0 then [] else rowSlots nx (rowStart nx ny z y) i (width nx - i)

theorem writeBack_runs (some : 0 < width nx) (few : width nx ≤ 2 ^ 32) :
    run (exec ops) (writeBack 1 nx ny z y (i * 2))
        (view sc R [] w0 w1 w2 (slotsBefore nx ny z y i) g l) =
      .some (view sc R [] w0 w1 w2 (rowSlots nx (rowStart nx ny z y) i (width nx - i)) g l) := by
  rcases Nat.eq_zero_or_pos i with rfl | later
  · have job : streamed [(width nx, 2), (2, nx), (2, 1)] (rowStart nx ny z y) =
        rowSlots nx (rowStart nx ny z y) 0 (width nx) := writeBack_streamed some few
    rw [writeBack, if_pos (Nat.zero_mul 2), Nat.zero_mul, rowStart_address, ← width, job]
    simp [run, exec, slotsBefore, view]
  · rw [writeBack, if_neg (by omega), slotsBefore, if_neg (by omega)]
    rfl

/-- What precedes the arithmetic of a block. -/
theorem launch_runs (fits : Fits nx ny) (inside : i < width nx) (few : width nx ≤ 2 ^ 32) :
    run (exec ops) (setPtrs 1 nx ny A (corner nx ny z y (i * 2)) ++ writeBack 1 nx ny z y (i * 2))
        (view sc R [] [] [] w2 (slotsBefore nx ny z y i) g l) =
      some (view sc R [] (words0 A nx ny (corner nx ny z y (i * 2)) 0 27)
        (words1 A nx ny (corner nx ny z y (i * 2)) 0 27) w2
        (starts nx (corner nx ny z y (i * 2) + centre nx ny) ++ slotsBefore nx ny z y (i + 1))
        g l) := by
  obtain ⟨d, left⟩ : ∃ d, width nx - i = d + 1 ∧ width nx - (i + 1) = d :=
    ⟨width nx - (i + 1), by omega⟩
  rw [run_append_of (setPtrs_runs fits _), writeBack_runs (Nat.zero_lt_of_lt inside) few, left.1,
    rowSlots_succ, rowStart_eq, slotsBefore, if_neg (Nat.succ_ne_zero i), left.2]

/-- The blocks of `box3d1r_opt2`. -/
theorem opt2_block_runs (fits : Fits nx ny) (few : width nx ≤ 2 ^ 32) (loaded : Loaded c R)
    (inside : i < width nx) :
    run (exec ops) (setPtrs 1 nx ny A (corner nx ny z y (i * 2)) ++
          writeBack 1 nx ny z y (i * 2) ++ chain 25 ++
          quad fun point => .fmadd (ft 2) (fa 6) point (fa 0))
        (view mask R [] [] [] [] (slotsBefore nx ny z y i) g l) =
      some (view mask R [] [] [] [] (slotsBefore nx ny z y (i + 1))
        (put (fun q => sumAt ops c A nx ny q 26) nx ny (corner nx ny z y (i * 2)) g)
        (l ++ popped ops c A nx ny (corner nx ny z y (i * 2)) 26)) := by
  have last : R (fa 6) = c 26 := loaded 26 (by decide)
  have plain : Plain mask (fa 6) := plain_coefficient 26 (by decide)
  have taken (p : Nat) : popped ops c A nx ny p 26 = popped ops c A nx ny p 25 ++ (starts nx p).map
      fun q => (sumAt ops c A nx ny q 25, sumAt ops c A nx ny q 26) := popped_succ p 25
  rw [List.append_assoc, run_append_of (launch_runs fits inside few),
    run_append_of (chain_runs loaded _ (m := 1) (by decide)), words0_succ, words1_succ,
    taken, ← List.append_assoc]
  refine (last_row plain).trans ?_
  simp only [last]
  rfl

/-- The blocks of `j3d27pt_opt2`. -/
theorem j3d27pt_block_runs (fits : Fits nx ny) (few : width nx ≤ 2 ^ 32) (loaded : Loaded c R)
    (inside : i < width nx) :
    run (exec ops) (setPtrs 1 nx ny A (corner nx ny z y (i * 2)) ++
          writeBack 1 nx ny z y (i * 2) ++ chain 26 ++
          List.replicate (3 + 1) (.fmul (ft 2) (fa 7) (fa 0)))
        (view mask R [] [] [] [] (slotsBefore nx ny z y i) g l) =
      some (view mask R [] [] [] [] (slotsBefore nx ny z y (i + 1))
        (put (fun q => ops.mul (R (fa 7)) (sumAt ops c A nx ny q 26)) nx ny
          (corner nx ny z y (i * 2)) g)
        (l ++ (popped ops c A nx ny (corner nx ny z y (i * 2)) 26 ++
          (starts nx (corner nx ny z y (i * 2))).map fun q =>
            (sumAt ops c A nx ny q 26, ops.mul (R (fa 7)) (sumAt ops c A nx ny q 26))))) := by
  have plain : Plain mask (fa 7) := by decide
  rw [List.append_assoc, run_append_of (launch_runs fits inside few),
    run_append_of (chain_runs loaded _ (m := 0) (by decide)), ← List.append_assoc]
  exact scaled_row plain

end Blocks

/-! ## Blocks on four registers -/

section Registers

variable {V : Type} {ops : Arith V} {R : Nat → V} {w0 w1 w2 : List V} {sl : List Nat}
  {g : Nat → V} {l : List (V × V)} {c A : Nat → V} {nx ny z y i : Nat}
  {a0 a1 a2 a3 v v0 v1 v2 v3 : V}

/-- Values in the registers `fa0` to `fa3`. -/
def quadruple (R : Nat → V) (v0 v1 v2 v3 : V) (r : Nat) : V :=
  if r = fa 0 then v0 else if r = fa 1 then v1 else if r = fa 2 then v2 else if r = fa 3 then v3
    else R r

theorem quadruple_self (R : Nat → V) :
    quadruple R (R (fa 0)) (R (fa 1)) (R (fa 2)) (R (fa 3)) = R := by
  funext r
  simp only [quadruple]
  split_ifs <;> simp [*]

@[simp] theorem quadruple_fa0 : quadruple R v0 v1 v2 v3 (fa 0) = v0 := rfl

@[simp] theorem quadruple_fa1 : quadruple R v0 v1 v2 v3 (fa 1) = v1 := rfl

@[simp] theorem quadruple_fa2 : quadruple R v0 v1 v2 v3 (fa 2) = v2 := rfl

@[simp] theorem quadruple_fa3 : quadruple R v0 v1 v2 v3 (fa 3) = v3 := rfl

@[simp] theorem update_quadruple_fa0 : Function.update (quadruple R v0 v1 v2 v3) (fa 0) v =
    quadruple R v v1 v2 v3 := by
  funext r
  by_cases here : r = fa 0
  · rw [here, Function.update_self]
    rfl
  · simp [quadruple, here]

@[simp] theorem update_quadruple_fa1 : Function.update (quadruple R v0 v1 v2 v3) (fa 1) v =
    quadruple R v0 v v2 v3 := by
  funext r
  by_cases here : r = fa 1
  · rw [here, Function.update_self]
    rfl
  · simp [quadruple, here]

@[simp] theorem update_quadruple_fa2 : Function.update (quadruple R v0 v1 v2 v3) (fa 2) v =
    quadruple R v0 v1 v v3 := by
  funext r
  by_cases here : r = fa 2
  · rw [here, Function.update_self]
    rfl
  · simp [quadruple, here]

@[simp] theorem update_quadruple_fa3 : Function.update (quadruple R v0 v1 v2 v3) (fa 3) v =
    quadruple R v0 v1 v2 v := by
  funext r
  by_cases here : r = fa 3
  · rw [here, Function.update_self]
    rfl
  · simp [quadruple, here]

variable {sc : BitVec 32}

/-- The sums are in registers. -/
structure Unchained (sc : BitVec 32) : Prop where
  fa0 : Plain sc (fa 0)
  fa1 : Plain sc (fa 1)
  fa2 : Plain sc (fa 2)
  fa3 : Plain sc (fa 3)

theorem unchained_zero : Unchained 0 := ⟨by decide, by decide, by decide, by decide⟩

theorem first_four (free : Unchained sc) :
    run (exec ops) (four fun sum point => .fmul sum (ft 2) point)
        (view sc R [] (a0 :: a2 :: w0) (a1 :: a3 :: w1) (v :: v :: v :: v :: w2) sl g l) =
      some (view sc (quadruple R (ops.mul v a0) (ops.mul v a1) (ops.mul v a2) (ops.mul v a3)) []
        w0 w1 w2 sl g l) := by
  conv_lhs => rw [← quadruple_self R]
  simp [four, run, exec, ft, take_ft0, take_ft1, take_ft2, note_view, stream_chained,
    free.fa0.give, free.fa1.give, free.fa2.give, free.fa3.give]

theorem next_four (free : Unchained sc) :
    run (exec ops) (four fun sum point => .fmadd sum (ft 2) point sum)
        (view sc (quadruple R v0 v1 v2 v3) [] (a0 :: a2 :: w0) (a1 :: a3 :: w1)
          (v :: v :: v :: v :: w2) sl g l) =
      some (view sc (quadruple R (ops.madd v a0 v0) (ops.madd v a1 v1) (ops.madd v a2 v2)
        (ops.madd v a3 v3)) [] w0 w1 w2 sl g l) := by
  simp [four, run, exec, ft, take_ft0, take_ft1, take_ft2, note_view, stream_chained,
    free.fa0.give, free.fa1.give, free.fa2.give, free.fa3.give, free.fa0.take, free.fa1.take,
    free.fa2.take, free.fa3.take, free.fa0.chained, free.fa1.chained, free.fa2.chained,
    free.fa3.chained]

theorem store_four (free : Unchained sc) (e0 e1 e2 e3 : Nat) :
    run (exec ops) [.fsd (fa 0) e0, .fsd (fa 1) e1, .fsd (fa 2) e2, .fsd (fa 3) e3]
        (view sc (quadruple R v0 v1 v2 v3) [] w0 w1 w2 sl g l) =
      some (view sc (quadruple R v0 v1 v2 v3) [] w0 w1 w2 sl
        (stored g e0 e1 e2 e3 v0 v1 v2 v3) l) := by
  simp [run, free.fa0.fsd, free.fa1.fsd, free.fa2.fsd, free.fa3.fsd, stored]

/-- The words of the stream of coefficients, from term `k` on. -/
def coefficientWords (c : Nat → V) (k n : Nat) : List V :=
  (List.range' k n).flatMap fun j => List.replicate 4 (c j)

theorem coefficientWords_succ (k n : Nat) : coefficientWords c k (n + 1) =
    c k :: c k :: c k :: c k :: coefficientWords c (k + 1) n := by
  simp [coefficientWords, List.range'_succ, List.replicate]

/-- The sums of four points in their registers. -/
def held (ops : Arith V) (c A : Nat → V) (nx ny : Nat) (R : Nat → V) (p n : Nat) : Nat → V :=
  quadruple R (sumAt ops c A nx ny p n) (sumAt ops c A nx ny (p + sx) n)
    (sumAt ops c A nx ny (p + sy nx) n) (sumAt ops c A nx ny (p + sb nx) n)

theorem sums_run (free : Unchained sc) (p : Nat) {n : Nat} :
    run (exec ops) (four (fun sum point => .fmul sum (ft 2) point) ++
          (List.range n).flatMap fun _ => four fun sum point => .fmadd sum (ft 2) point sum)
        (view sc R [] (words0 A nx ny p 0 (n + 1)) (words1 A nx ny p 0 (n + 1))
          (coefficientWords c 0 (n + 1) ++ w2) sl g l) =
      some (view sc (held ops c A nx ny R p n) [] [] [] w2 sl g l) := by
  -- after `k` rows
  let S (k : Nat) : State V :=
    view sc (held ops c A nx ny R p k) [] (words0 A nx ny p (k + 1) (n - k))
      (words1 A nx ny p (k + 1) (n - k)) (coefficientWords c (k + 1) (n - k) ++ w2) sl g l
  have rows : run (exec ops) ((List.range n).flatMap fun _ =>
      four fun sum point => .fmadd sum (ft 2) point sum) (S 0) = some (S n) := by
    refine run_range S fun k small => ?_
    obtain ⟨d, left⟩ : ∃ d, n - k = d + 1 ∧ n - (k + 1) = d := ⟨n - (k + 1), by omega⟩
    simp only [S, left, words0_succ, words1_succ, coefficientWords_succ]
    exact next_four free
  have last : S n = view sc (held ops c A nx ny R p n) [] [] [] w2 sl g l := by
    simp only [S, Nat.sub_self]
    rfl
  rw [words0_succ, words1_succ, coefficientWords_succ]
  refine (run_append_of (first_four free)).trans ?_
  rw [← last, ← rows]
  rfl

/-- The coefficients before block `i` of two rows: the job comes with the first block. -/
def coefficientsBefore (c : Nat → V) (nx i : Nat) : List V :=
  if i = 0 then []
  else (List.range' i (width nx - i)).flatMap fun _ => coefficientWords c 0 27

theorem copied_eq : copied 1 = List.range 27 := rfl

theorem readBack_words {W : Nat} (some : 0 < W) (few : W ≤ 2 ^ 32) :
    (repeated 4 (streamed [(W, 0), (npoints 1, 1)] 0)).map
        (fun n => c ((copied 1).getD n 0)) =
      (List.range' 0 W).flatMap fun _ => coefficientWords c 0 27 := by
  have points : iterations (npoints 1) = 27 := rfl
  have times : iterations 4 = 4 := rfl
  simp only [streamed, iterations_eq some few, points, repeated, times, List.flatMap_assoc,
    List.map_flatMap, coefficientWords, ← List.range_eq_range', copied_eq]
  refine List.flatMap_congr fun _ _ => List.flatMap_congr fun n member => ?_
  have small : n < 27 := List.mem_range.mp member
  simp [List.getD_eq_getElem?_getD, small]

theorem readBack_runs (inside : i < width nx) (few : width nx ≤ 2 ^ 32) :
    run (exec ops) (readBack 1 nx c (i * 2))
        (view sc R [] w0 w1 (coefficientsBefore c nx i) sl g l) =
      .some (view sc R [] w0 w1 (coefficientWords c 0 27 ++ coefficientsBefore c nx (i + 1))
        sl g l) := by
  obtain ⟨d, left⟩ : ∃ d, width nx - i = d + 1 ∧ width nx - (i + 1) = d :=
    ⟨width nx - (i + 1), by omega⟩
  have later : coefficientWords c 0 27 ++ coefficientsBefore c nx (i + 1) =
      (List.range' i (width nx - i)).flatMap fun _ => coefficientWords c 0 27 := by
    rw [coefficientsBefore, if_neg (Nat.succ_ne_zero i), left.1, left.2, List.range'_succ,
      List.flatMap_cons]
  rw [later]
  rcases Nat.eq_zero_or_pos i with rfl | behind
  · have job := readBack_words (c := c) (Nat.zero_lt_of_lt inside) few
    rw [readBack, if_pos (Nat.zero_mul 2), ← width, job]
    simp [run, exec, coefficientsBefore, view, three]
  · rw [readBack, if_neg (by omega), coefficientsBefore, if_neg (by omega)]
    rfl

/-- The blocks of `box3d1r_baseline4`. -/
theorem baseline4_block_runs (free : Unchained sc) (fits : Fits nx ny) (few : width nx ≤ 2 ^ 32)
    (inside : i < width nx) {wb : Nat} (address : wb = corner nx ny z y (i * 2) + centre nx ny) :
    run (exec ops) (setPtrs 1 nx ny A (corner nx ny z y (i * 2)) ++ readBack 1 nx c (i * 2) ++
          four (fun sum point => .fmul sum (ft 2) point) ++
          (List.range (npoints 1 - 2 + 1)).flatMap (fun _ =>
            four fun sum point => .fmadd sum (ft 2) point sum) ++
          [.fsd (fa 0) wb, .fsd (fa 1) (wb + sx), .fsd (fa 2) (wb + sy nx),
            .fsd (fa 3) (wb + sb nx)])
        (view sc R [] [] [] (coefficientsBefore c nx i) [] g l) =
      some (view sc (held ops c A nx ny R (corner nx ny z y (i * 2)) 26) [] [] []
        (coefficientsBefore c nx (i + 1)) []
        (put (fun q => sumAt ops c A nx ny q 26) nx ny (corner nx ny z y (i * 2)) g) l) := by
  subst address
  rw [List.append_assoc, List.append_assoc, List.append_assoc, run_append_of (setPtrs_runs fits _),
    run_append_of (readBack_runs inside few), ← List.append_assoc]
  refine (run_append_of (sums_run free _ (n := 26))).trans ?_
  exact store_four free _ _ _ _

end Registers

/-! ## All blocks -/

section Sweep

variable {V : Type} {ops : Arith V} {sc : BitVec 32} {loaded : (Nat → V) → Prop} {nx ny nz : Nat}
  {block : Nat → Nat → Nat → List (Instr V)} {value : Nat → V} {taken : Nat → List (V × V)}
  {words : Nat → List V} {slots : Nat → Nat → Nat → List Nat} {m : Nat → V} {D : List Nat}
  {s : State V}

/-- The grid behind the blocks that start at `D`. -/
def covered (value : Nat → V) (nx ny : Nat) (D : List Nat) (m : Nat → V) (e : Nat) : V :=
  if e ∈ D.flatMap fun p => starts nx (p + centre nx ny) then value (e - centre nx ny) else m e

theorem stored_apply (h g : Nat → V) (e0 e1 e2 e3 e : Nat) :
    stored g e0 e1 e2 e3 (h e0) (h e1) (h e2) (h e3) e =
      if e ∈ [e0, e1, e2, e3] then h e else g e := by
  simp only [stored, Function.update_apply, List.mem_cons, List.not_mem_nil, or_false]
  split_ifs <;> simp_all

theorem put_covered (p : Nat) :
    put value nx ny p (covered value nx ny D m) = covered value nx ny (D ++ [p]) m := by
  funext e
  have back (o : Nat) : value (p + o) = value (p + centre nx ny + o - centre nx ny) := by
    congr 1
    omega
  have point := back 0
  rw [Nat.add_zero, Nat.add_zero] at point
  rw [put, point, back sx, back (sy nx), back (sb nx),
    stored_apply (fun e => value (e - centre nx ny)), covered, covered]
  simp only [List.flatMap_append, List.flatMap_singleton, List.mem_append, starts]
  split_ifs <;> simp_all

/-- What a block does: it keeps what is loaded and leaves four grid points; `words` and `slots` are
what the third data mover is still to do before block `i` of two rows. -/
structure Handles (ops : Arith V) (sc : BitVec 32) (loaded : (Nat → V) → Prop) (nx ny : Nat)
    (block : Nat → Nat → Nat → List (Instr V)) (value : Nat → V) (taken : Nat → List (V × V))
    (words : Nat → List V) (slots : Nat → Nat → Nat → List Nat) : Prop where
  runs : ∀ z y i, i < width nx → ∀ R, loaded R → ∀ g l, ∃ R', loaded R' ∧
    run (exec ops) (block z y (i * 2)) (view sc R [] [] [] (words i) (slots z y i) g l) =
      some (view sc R' [] [] [] (words (i + 1)) (slots z y (i + 1))
        (put value nx ny (corner nx ny z y (i * 2)) g) (l ++ taken (corner nx ny z y (i * 2))))
  words_first : words 0 = []
  words_last : words (width nx) = []
  slots_first : ∀ z y, slots z y 0 = []
  slots_last : ∀ z y, slots z y (width nx) = []

/-- Between the blocks: those that start at `D` are behind. -/
def Through (sc : BitVec 32) (loaded : (Nat → V) → Prop) (nx ny : Nat) (value : Nat → V)
    (taken : Nat → List (V × V)) (m : Nat → V) (w2 : List V) (sl : List Nat) (D : List Nat)
    (s : State V) : Prop :=
  ∃ R, loaded R ∧
    s = view sc R [] [] [] w2 sl (covered value nx ny D m) (D.flatMap taken)

theorem Through.drained {w2 : List V} {sl : List Nat}
    (through : Through sc loaded nx ny value taken m w2 sl D s) : s.Drained := by
  obtain ⟨R, _, rfl⟩ := through
  exact ⟨only_nil _, rfl, rfl⟩

/-- Where the blocks of two rows start. -/
def rowSites (nx ny z y : Nat) : List Nat :=
  (stepped 0 (nx - 2 * 1) 2).map fun x => corner nx ny z y x

theorem stepped_even {n : Nat} (even : n % 2 = 0) :
    stepped 0 n 2 = (List.range (n / 2)).map (· * 2) := by
  have count : (n - 0 + (2 - 1)) / 2 = n / 2 := by omega
  rw [stepped, count]
  simp

theorem stepped_columns (even : nx % 2 = 0) :
    stepped 0 (nx - 2 * 1) 2 = (List.range (width nx)).map (· * 2) := stepped_even (by omega)

theorem row_passes (handles : Handles ops sc loaded nx ny block value taken words slots)
    (even : nx % 2 = 0) {z y : Nat} (through : Through sc loaded nx ny value taken m [] [] D s) :
    ∃ t, Passes (exec ops) State.Drained ((stepped 0 (nx - 2 * 1) 2).map fun x => block z y x) s t ∧
      Through sc loaded nx ny value taken m [] [] (D ++ rowSites nx ny z y) t := by
  -- before block `i`
  let sites (i : Nat) : List Nat := D ++ (List.range i).map fun i => corner nx ny z y (i * 2)
  have next (i : Nat) : sites (i + 1) = sites i ++ [corner nx ny z y (i * 2)] := by
    simp [sites, List.range_succ]
  have passes : ∃ t, Passes (exec ops) State.Drained
      ((List.range (width nx)).flatMap fun i => [block z y (i * 2)]) s t ∧
        Through sc loaded nx ny value taken m (words (width nx)) (slots z y (width nx))
          (sites (width nx)) t := by
    refine passes_range (fun i => Through sc loaded nx ny value taken m (words i) (slots z y i)
      (sites i)) ?_ ?_
    · rintro i inside _ ⟨R, held, rfl⟩
      obtain ⟨R', held, ran⟩ := handles.runs z y i inside R held
        (covered value nx ny (sites i) m) ((sites i).flatMap taken)
      have log : (sites i).flatMap taken ++ taken (corner nx ny z y (i * 2)) =
          (sites (i + 1)).flatMap taken := by
        simp only [next, List.flatMap_append, List.flatMap_singleton]
      rw [put_covered, log, ← next] at ran
      have holds : Through sc loaded nx ny value taken m (words (i + 1)) (slots z y (i + 1))
          (sites (i + 1)) (view sc R' [] [] [] (words (i + 1)) (slots z y (i + 1))
            (covered value nx ny (sites (i + 1)) m) ((sites (i + 1)).flatMap taken)) :=
        ⟨R', held, rfl⟩
      exact ⟨_, .single ran holds.drained, holds⟩
    · simpa [sites, handles.words_first, handles.slots_first] using through
  obtain ⟨t, passes, holds⟩ := passes
  rw [handles.words_last, handles.slots_last] at holds
  refine ⟨t, ?_, ?_⟩
  · rw [stepped_columns even, List.map_map, List.map_eq_flatMap]
    exact passes
  · rw [rowSites, stepped_columns even, List.map_map]
    exact holds

/-- Where the blocks start. -/
def sites (nx ny nz : Nat) : List Nat :=
  (List.range (nz - 2 * 1)).flatMap fun z =>
    (stepped 0 (ny - 2 * 1) 2).flatMap fun y => rowSites nx ny z y

/-- **The blocks get through**, each with its queue and its streams drained. -/
theorem blocks_pass (handles : Handles ops sc loaded nx ny block value taken words slots)
    (even : nx % 2 = 0) (through : Through sc loaded nx ny value taken m [] [] [] s) :
    ∃ t, Passes (exec ops) State.Drained (blocks 1 nx ny nz block) s t ∧
      Through sc loaded nx ny value taken m [] [] (sites nx ny nz) t := by
  refine passes_items (fun before => Through sc loaded nx ny value taken m [] []
    (before.flatMap fun z => (stepped 0 (ny - 2 * 1) 2).flatMap fun y => rowSites nx ny z y))
    ?_ through
  intro planes z _ s through
  rw [List.flatMap_append, List.flatMap_singleton]
  refine passes_items (fun before => Through sc loaded nx ny value taken m [] []
    ((planes.flatMap fun z => (stepped 0 (ny - 2 * 1) 2).flatMap fun y => rowSites nx ny z y) ++
      before.flatMap fun y => rowSites nx ny z y)) ?_ ?_
  · intro rows y _ s through
    rw [List.flatMap_append, List.flatMap_singleton, ← List.append_assoc]
    exact row_passes handles even through
  · rw [List.flatMap_nil, List.append_nil]
    exact through

theorem through_start {R : Nat → V} (held : loaded R) :
    Through sc loaded nx ny value taken m [] [] [] (view sc R [] [] [] [] [] m []) :=
  ⟨R, held, rfl⟩

end Sweep

/-! ## The kernels -/

section Kernels

variable {V : Type} {ops : Arith V} {nx ny nz : Nat} {c A m : Nat → V} {fact : V}

theorem coefficient_inj : ∀ n < 27, ∀ n' < 27, coefficient n = coefficient n' → n = n' := by
  decide

theorem coefficient_ne : ∀ n < 27, coefficient n ≠ fa 7 := by decide

/-- The registers after the first loads. -/
def filled (c : Nat → V) (reg : Nat → V) (k : Nat) : Nat → V :=
  loop k (fun n R => Function.update R (coefficient n) (c n)) reg

theorem filled_loaded (reg : Nat → V) : Loaded c (filled c reg 27) := by
  intro n small
  have each : ∀ k ≤ 27, n < k → filled c reg k (coefficient n) = c n := by
    intro k
    induction k with
    | zero => exact fun _ before => absurd before (Nat.not_lt_zero n)
    | succ k ih =>
      intro few before
      rw [filled, loop_succ]
      rcases Nat.lt_succ_iff_lt_or_eq.mp before with before | rfl
      · rw [Function.update_of_ne fun same =>
          before.ne (coefficient_inj n small k few same)]
        exact ih (Nat.le_of_succ_le few) before
      · exact Function.update_self _ _ _
  exact each 27 (Nat.le_refl _) small

theorem filled_keep (reg : Nat → V) {k : Nat} (few : k ≤ 27) :
    filled c reg k (fa 7) = reg (fa 7) := by
  induction k with
  | zero => rfl
  | succ k ih =>
    rw [filled, loop_succ, Function.update_of_ne (coefficient_ne k few).symm]
    exact ih (Nat.le_of_succ_le few)

theorem loads_run (reg : Nat → V) :
    run (exec ops) (loads c) (start reg m) = some (start (filled c reg 27) m) := by
  rw [loads, List.map_eq_flatMap]
  refine run_range (fun k => start (filled c reg k) m) fun k small => ?_
  simp [run, exec, State.give, State.streams, start, filled, loop_succ]

theorem enabled_run {R : Nat → V} :
    run (exec ops) [.ssr true, .sc_enable 0x400] (start R m) =
      some (view mask R [] [] [] [] [] m []) := by
  have on : (0 : BitVec 32) ||| 0x400 = mask := by decide
  rw [← view_start, ← on]
  rfl

/-- What is in the end left of a view. -/
theorem last_drained {R : Nat → V} {l : List (V × V)} :
    run (exec ops) [.sc_disable 0x400, .ssr false] (view mask R [] [] [] [] [] m l) =
      some { view 0 R [] [] [] [] [] m l with ssr := false } := by
  have off : mask &&& ~~~(0x400 : BitVec 32) = 0 := by decide
  simp only [run, exec, Option.bind_some, view, off]

theorem width_le (fits : Fits nx ny) : width nx ≤ 2 ^ 32 := by
  rw [Fits, sb, sy] at fits
  rw [width]
  omega

theorem slotsBefore_last (z y : Nat) : slotsBefore nx ny z y (width nx) = [] := by
  rw [slotsBefore, Nat.sub_self]
  exact ite_self _

/-- **`box3d1r_opt2` leaves the sums of all its points**; each is taken from the queue once for each
further term. -/
theorem box3d1r_opt2_leaves (even : nx % 2 = 0) (fits : Fits nx ny) :
    (box3d1r_opt2 1 nx ny nz c A).Leaves ops m
      (covered (fun q => sumAt ops c A nx ny q 26) nx ny (sites nx ny nz) m)
      ((sites nx ny nz).flatMap fun p => popped ops c A nx ny p 26) := by
  intro reg
  have handles : Handles ops mask (Loaded c) nx ny (fun z y x =>
      setPtrs 1 nx ny A (corner nx ny z y x) ++ writeBack 1 nx ny z y x ++ chain 25 ++
        quad fun point => .fmadd (ft 2) (fa 6) point (fa 0))
      (fun q => sumAt ops c A nx ny q 26) (fun p => popped ops c A nx ny p 26) (fun _ => [])
      (slotsBefore nx ny) :=
    ⟨fun z y i inside R held g l =>
      ⟨R, held, opt2_block_runs fits (width_le fits) held inside⟩, rfl, rfl, fun _ _ => rfl,
      slotsBefore_last⟩
  obtain ⟨t, passes, R, held, rfl⟩ :=
    blocks_pass handles even (through_start (filled_loaded reg))
  refine ⟨_, _, _, ?_, passes, last_drained, rfl, rfl, only_nil _, three_nil, only_nil _⟩
  rw [box3d1r_opt2, run_append_of (loads_run reg)]
  exact enabled_run

/-- What a block of `j3d27pt_opt2` takes from the queue: the sums once more, to be scaled. -/
def scaledPops (ops : Arith V) (fact : V) (c A : Nat → V) (nx ny p : Nat) : List (V × V) :=
  popped ops c A nx ny p 26 ++ (starts nx p).map fun q =>
    (sumAt ops c A nx ny q 26, ops.mul fact (sumAt ops c A nx ny q 26))

/-- **`j3d27pt_opt2` leaves the scaled sums of all its points.** -/
theorem j3d27pt_opt2_leaves (even : nx % 2 = 0) (fits : Fits nx ny) :
    (j3d27pt_opt2 fact nx ny nz c A).Leaves ops m
      (covered (fun q => ops.mul fact (sumAt ops c A nx ny q 26)) nx ny (sites nx ny nz) m)
      ((sites nx ny nz).flatMap (scaledPops ops fact c A nx ny)) := by
  intro reg
  have handles : Handles ops mask (fun R => Loaded c R ∧ R (fa 7) = fact) nx ny (fun z y x =>
      setPtrs 1 nx ny A (corner nx ny z y x) ++ writeBack 1 nx ny z y x ++ chain 26 ++
        List.replicate (3 + 1) (.fmul (ft 2) (fa 7) (fa 0)))
      (fun q => ops.mul fact (sumAt ops c A nx ny q 26)) (scaledPops ops fact c A nx ny)
      (fun _ => []) (slotsBefore nx ny) := by
    refine ⟨fun z y i inside R held g l => ?_, rfl, rfl, fun _ _ => rfl, slotsBefore_last⟩
    obtain ⟨held, rfl⟩ := held
    exact ⟨R, ⟨held, rfl⟩, j3d27pt_block_runs fits (width_le fits) held inside⟩
  have first : exec ops (.fld (fa 7) fact) (start reg m) =
      some (start (Function.update reg (fa 7) fact) m) := by
    simp [exec, State.give, State.streams, start]
  have held : filled c (Function.update reg (fa 7) fact) 27 (fa 7) = fact := by
    rw [filled_keep _ (Nat.le_refl _), Function.update_self]
  obtain ⟨t, passes, R, _, rfl⟩ :=
    blocks_pass handles even (through_start ⟨filled_loaded (Function.update reg (fa 7) fact), held⟩)
  refine ⟨_, _, _, ?_, passes, last_drained, rfl, rfl, only_nil _, three_nil, only_nil _⟩
  rw [j3d27pt_opt2, List.cons_append, run_cons first, run_append_of (loads_run _)]
  exact enabled_run

/-- **`box3d1r_baseline4` leaves the sums of all its points.** -/
theorem box3d1r_baseline4_leaves (even : nx % 2 = 0) (fits : Fits nx ny) :
    (box3d1r_baseline4 1 nx ny nz c A).Leaves ops m
      (covered (fun q => sumAt ops c A nx ny q 26) nx ny (sites nx ny nz) m) [] := by
  intro reg
  have handles : Handles ops 0 (fun _ => True) nx ny (fun z y x =>
      setPtrs 1 nx ny A (corner nx ny z y x) ++ readBack 1 nx c x ++
        four (fun sum point => .fmul sum (ft 2) point) ++
        (List.range (npoints 1 - 2 + 1)).flatMap (fun _ =>
          four fun sum point => .fmadd sum (ft 2) point sum) ++
        [.fsd (fa 0) ((z + 1) * ny * nx + (y + 1) * nx + (x + 1)),
          .fsd (fa 1) ((z + 1) * ny * nx + (y + 1) * nx + (x + 1) + sx),
          .fsd (fa 2) ((z + 1) * ny * nx + (y + 1) * nx + (x + 1) + sy nx),
          .fsd (fa 3) ((z + 1) * ny * nx + (y + 1) * nx + (x + 1) + sb nx)])
      (fun q => sumAt ops c A nx ny q 26) (fun _ => []) (coefficientsBefore c nx)
      (fun _ _ _ => []) := by
    refine ⟨fun z y i inside R _ g l => ?_, rfl, ?_, fun _ _ => rfl, fun _ _ => rfl⟩
    · have address : (z + 1) * ny * nx + (y + 1) * nx + (i * 2 + 1) =
          corner nx ny z y (i * 2) + centre nx ny := by
        simp only [corner, centre]
        ring
      rw [List.append_nil]
      exact ⟨_, trivial, baseline4_block_runs unchained_zero fits (width_le fits) inside address⟩
    · rw [coefficientsBefore, Nat.sub_self]
      exact ite_self _
  obtain ⟨t, passes, R, _, rfl⟩ := blocks_pass handles even (through_start trivial)
  have nothing : (sites nx ny nz).flatMap (fun _ => ([] : List (V × V))) = [] := by
    simp
  refine ⟨_, _, { view 0 R [] [] [] [] [] _ _ with ssr := false }, ?_, passes, ?_, rfl, nothing,
    only_nil _, three_nil, only_nil _⟩
  · exact congrArg some view_start
  · rfl

end Kernels

/-! ## The naive kernels -/

section Naive

variable {F : Type} [Semiring F] {nx ny nz : Nat} {c A : Nat → F}

/-- The arithmetic of a semiring. -/
def ofSemiring (F : Type) [Semiring F] : Arith F where
  mul u v := u * v
  madd u v w := u * v + w

theorem sumAt_ofSemiring (p n : Nat) : sumAt (ofSemiring F) c A nx ny p n =
    ∑ k ∈ Finset.range (n + 1), c k * A (p + neighbour nx ny k) := by
  induction n with
  | zero => simp [sumAt, ofSemiring]
  | succ n ih =>
    rw [Finset.sum_range_succ, ← ih]
    exact add_comm _ _

theorem neighbourhood_eq (z y x : Nat) : neighbourhood 1 nx ny c A (z + 1) (y + 1) (x + 1) =
    sumAt (ofSemiring F) c A nx ny (corner nx ny z y x) 26 := by
  have terms (dz dy dx : Nat) : A ((z + 1 + dz - 1) * ny * nx + (y + 1 + dy - 1) * nx +
      (x + 1 + dx - 1)) = A (corner nx ny z y x + point nx ny dz dy dx) := by
    congr 1
    have shift (a d : Nat) : a + 1 + d - 1 = a + d := by omega
    simp only [shift, corner, point]
    ring
  rw [sumAt_ofSemiring, neighbourhood]
  simp only [terms]
  have flat : loop (2 * 1 + 1) (fun dz => loop (2 * 1 + 1) fun dy => loop (2 * 1 + 1) fun dx acc =>
      acc + c (dz * (2 * 1 + 1) * (2 * 1 + 1) + dy * (2 * 1 + 1) + dx) *
        A (corner nx ny z y x + point nx ny dz dy dx)) 0 =
      loop 27 (fun k acc => acc + c k * A (corner nx ny z y x + neighbour nx ny k)) 0 := rfl
  rw [flat, loop_add, zero_add]

omit [Semiring F] in
/-- A loop that writes elements of a list, each with its own value. -/
theorem loop_writes {n : Nat} {body : Nat → (Nat → F) → Nat → F} {S : Nat → List Nat}
    {h : Nat → F} {m : Nat → F}
    (each : ∀ i < n, ∀ m e, body i m e = if e ∈ S i then h e else m e) (e : Nat) :
    loop n body m e = if e ∈ (List.range n).flatMap S then h e else m e := by
  induction n with
  | zero => simp
  | succ n ih =>
    rw [loop_succ, each n (Nat.lt_succ_self n),
      ih fun i small => each i (Nat.lt_succ_of_lt small), List.range_succ, List.flatMap_append,
      List.flatMap_singleton]
    by_cases last : e ∈ S n <;> simp [last]

/-- The inner grid points. -/
def inner (nx ny nz : Nat) : List Nat :=
  (List.range (nz - 1 - 1)).flatMap fun z => (List.range (ny - 1 - 1)).flatMap fun y =>
    (List.range (nx - 1 - 1)).flatMap fun x => [corner nx ny z y x + centre nx ny]

omit [Semiring F] in
theorem eachPoint_eq {value : Nat → Nat → Nat → F} {h : Nat → F}
    (same : ∀ z y x, value (z + 1) (y + 1) (x + 1) = h (corner nx ny z y x)) (m : Nat → F)
    (e : Nat) : eachPoint 1 nx ny nz value m e =
      if e ∈ inner nx ny nz then h (e - centre nx ny) else m e := by
  refine loop_writes (h := fun e => h (e - centre nx ny)) (fun z _ m e => ?_) e
  refine loop_writes (h := fun e => h (e - centre nx ny)) (fun y _ m e => ?_) e
  refine loop_writes (h := fun e => h (e - centre nx ny)) (fun x _ m e => ?_) e
  have address : (z + 1) * ny * nx + (y + 1) * nx + (x + 1) =
      corner nx ny z y x + centre nx ny := by
    simp only [corner, centre]
    ring
  rw [address, same, Function.update_apply]
  by_cases here : e = corner nx ny z y x + centre nx ny
  · simp [here]
  · simp [here]

/-- **The blocks cover the inner grid points.** -/
theorem mem_sites (even_x : nx % 2 = 0) (even_y : ny % 2 = 0) (e : Nat) :
    (e ∈ (sites nx ny nz).flatMap fun p => starts nx (p + centre nx ny)) ↔
      e ∈ inner nx ny nz := by
  have columns : stepped 0 (nx - 2 * 1) 2 = (List.range (width nx)).map (· * 2) :=
    stepped_columns even_x
  have rows : stepped 0 (ny - 2 * 1) 2 = (List.range ((ny - 2 * 1) / 2)).map (· * 2) :=
    stepped_even (by omega)
  -- the corner of a point in the second row or column
  have corners (z y x dy dx : Nat) :
      corner nx ny z (y * 2 + dy) (x * 2 + dx) = corner nx ny z (y * 2) (x * 2) + dy * nx + dx := by
    simp only [corner]
    ring
  simp only [sites, rowSites, inner, columns, rows, List.mem_flatMap, List.mem_map, List.mem_range,
    starts, sx, sy, sb, List.mem_cons, List.not_mem_nil, or_false, width]
  constructor
  · rintro ⟨p, ⟨z, plane, y, ⟨j, row, rfl⟩, x, ⟨i, column, rfl⟩, rfl⟩, start⟩
    have second (dy dx : Nat) (dy_small : dy < 2) (dx_small : dx < 2)
        (here : e = corner nx ny z (j * 2) (i * 2) + dy * nx + dx + centre nx ny) :
        ∃ z < nz - 1 - 1, ∃ y < ny - 1 - 1, ∃ x < nx - 1 - 1,
          e = corner nx ny z y x + centre nx ny :=
      ⟨z, by omega, j * 2 + dy, by omega, i * 2 + dx, by omega, by rw [corners]; exact here⟩
    rcases start with rfl | rfl | rfl | rfl
    · exact second 0 0 (by decide) (by decide) (by omega)
    · exact second 0 1 (by decide) (by decide) (by omega)
    · exact second 1 0 (by decide) (by decide) (by omega)
    · exact second 1 1 (by decide) (by decide) (by omega)
  · rintro ⟨z, plane, y, row, x, column, rfl⟩
    obtain ⟨j, dy, dy_small, rfl⟩ : ∃ j dy, dy < 2 ∧ y = j * 2 + dy :=
      ⟨y / 2, y % 2, Nat.mod_lt _ Nat.two_pos, by omega⟩
    obtain ⟨i, dx, dx_small, rfl⟩ : ∃ i dx, dx < 2 ∧ x = i * 2 + dx :=
      ⟨x / 2, x % 2, Nat.mod_lt _ Nat.two_pos, by omega⟩
    refine ⟨_, ⟨z, by omega, _, ⟨j, by omega, rfl⟩, _, ⟨i, by omega, rfl⟩, rfl⟩, ?_⟩
    rw [corners]
    have row_cases : dy = 0 ∨ dy = 1 := by omega
    have column_cases : dx = 0 ∨ dx = 1 := by omega
    rcases row_cases with rfl | rfl <;> rcases column_cases with rfl | rfl <;> omega

omit [Semiring F] in
theorem covered_eq {value : Nat → Nat → Nat → F} {h : Nat → F} (even_x : nx % 2 = 0)
    (even_y : ny % 2 = 0)
    (same : ∀ z y x, value (z + 1) (y + 1) (x + 1) = h (corner nx ny z y x)) (m : Nat → F) :
    covered h nx ny (sites nx ny nz) m = eachPoint 1 nx ny nz value m := by
  funext e
  rw [eachPoint_eq same, covered]
  simp only [mem_sites even_x even_y]

end Naive

section Refine

variable {V F : Type} [Field F] {nx ny nz : Nat}

/-- `1.0 / fac` -/
def fact (fac : Int) : F := 1 / (fac : F)

/-- **The optimised stencils leave what the naive ones leave.**  They get through, behind each block
no value is left in the queue and no word in the streams of grid points, and in the end all jobs are
consumed.  Whatever the arithmetic, what is taken from the queue are the sums of the four points of
each block, once for every number of terms, each to become the sum of the same point with one term
more -- or, in the end, its scaled result. -/
theorem stencils_refine (ops : Arith V) (c' A' m' : Nat → V) (fact' : V) (fac : Int)
    (c A A_ : Nat → F) (even_x : nx % 2 = 0) (even_y : ny % 2 = 0) (fits : Fits nx ny) :
    (box3d1r_opt2 1 nx ny nz c A).Leaves (ofSemiring F) A_ (box3d1r_naive 1 nx ny nz c A A_)
        ((sites nx ny nz).flatMap fun p => popped (ofSemiring F) c A nx ny p 26) ∧
      (box3d1r_baseline4 1 nx ny nz c A).Leaves (ofSemiring F) A_ (box3d1r_naive 1 nx ny nz c A A_)
        [] ∧
      (j3d27pt_opt2 (fact fac) nx ny nz c A).Leaves (ofSemiring F) A_
        (j3d27pt_naive (fact fac) nx ny nz c A A_)
        ((sites nx ny nz).flatMap (scaledPops (ofSemiring F) (fact fac) c A nx ny)) ∧
      (∃ m'', (box3d1r_opt2 1 nx ny nz c' A').Leaves ops m' m''
        ((sites nx ny nz).flatMap fun p => popped ops c' A' nx ny p 26)) ∧
      ∃ m'', (j3d27pt_opt2 fact' nx ny nz c' A').Leaves ops m' m''
        ((sites nx ny nz).flatMap (scaledPops ops fact' c' A' nx ny)) := by
  have plain : covered (fun q => sumAt (ofSemiring F) c A nx ny q 26) nx ny (sites nx ny nz) A_ =
      box3d1r_naive 1 nx ny nz c A A_ := covered_eq even_x even_y neighbourhood_eq A_
  have scaled : covered (fun q =>
      (ofSemiring F).mul (fact fac) (sumAt (ofSemiring F) c A nx ny q 26)) nx ny
      (sites nx ny nz) A_ = j3d27pt_naive (fact fac) nx ny nz c A A_ :=
    covered_eq even_x even_y (fun z y x => by rw [neighbourhood_eq]; rfl) A_
  refine ⟨?_, ?_, ?_, ⟨_, box3d1r_opt2_leaves even_x fits⟩, _, j3d27pt_opt2_leaves even_x fits⟩
  · rw [← plain]
    exact box3d1r_opt2_leaves even_x fits
  · rw [← plain]
    exact box3d1r_baseline4_leaves even_x fits
  · rw [← scaled]
    exact j3d27pt_opt2_leaves even_x fits

/-- A grid of 6 by 8 by 3. -/
theorem stencils_refine_grid :
    (box3d1r_opt2 1 6 8 3 (fun _ => 1) (fun e => (e : ℚ))).Leaves (ofSemiring ℚ) (fun _ => 0)
        (box3d1r_naive 1 6 8 3 (fun _ => 1) (fun e => (e : ℚ)) fun _ => 0)
        ((sites 6 8 3).flatMap fun p =>
          popped (ofSemiring ℚ) (fun _ => 1) (fun e => (e : ℚ)) 6 8 p 26) :=
  (stencils_refine (ofSemiring ℚ) (fun _ => 1) (fun _ => 1) (fun _ => 1) 1 27 (fun _ => 1)
    (fun e => (e : ℚ)) (fun _ => 0) (by decide) (by decide) (by decide)).1

end Refine

end SnitchCluster.Kernels.Stencils
