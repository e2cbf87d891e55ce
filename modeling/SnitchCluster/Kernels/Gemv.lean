/-
# Kernels.Gemv -- matrix times vector

`gemv` deals out the rows of the product to the compute cores in blocks, the rest to the last one.
A core takes the elements of its rows and those of the vector from two streams, by rows or by
columns of what is stored; every row is one dot product (`gemv_rows`).
-/
import SnitchCluster.Kernels.BlasVariants

namespace SnitchCluster.Kernels.Gemv

open Blas Theory Theory.Loops Theory.Supersteps

/-! ## The code -/

section Code

variable {E L F : Type} [DecidableEq E] [DecidableEq L] [CommSemiring F]

/-- `ft0`: the elements of `m` rows, along the rows or the columns of what is stored. -/
def ssr0 (trans : Bool) (m n lda : Nat) : List Nat :=
  if trans then streamed [(m, 1), (n, lda)] 0 else streamed [(m, lda), (n, 1)] 0

/-- `ft1`: the vector, again for each row. -/
def ssr1 (m n incx : Nat) : List Nat := streamed [(m, 0), (n, incx)] 0

/-- `fmul.d acc, acc, ft3` -/
def scale (acc : Word E L) (alpha : F) : Step E L F :=
  .assign acc acc acc acc fun v _ _ => v * alpha

def single_core_gemv (acc : Word E L) (trans : Bool) (m n : Nat) (alpha : F) (a : Nat → Word E L)
    (lda : Nat) (x : Nat → Word E L) (incx : Nat) (y : Nat → Word E L) :
    Variant (Word E L × Word E L) (Word E L) F where
  steps := (List.range m).flatMap fun i =>
    [put acc 0].map .plain ++
      ((List.range (iterations n)).map fun _ => .pop fun ft => fmadd acc ft.1 ft.2 acc) ++
      [scale acc alpha, transfer (y i) acc].map .plain
  words := ((ssr0 trans m n lda).map a).zip ((ssr1 m n incx).map x)
  streams := [(ssr0 trans m n lda).map a, (ssr1 m n incx).map x]

/-- The rows of a core: the last core computes the rest. -/
def start_m (num core m : Nat) : Nat := core * (m / num)

def core_m (num core m : Nat) : Nat :=
  if core = num - 1 then m / num + m % num else m / num

def gemv (num core : Nat) (acc : Word E L) (trans : Bool) (m n : Nat) (alpha : F)
    (a x : Nat → Word E L) (incx : Nat) (y : Nat → Word E L) :
    Variant (Word E L × Word E L) (Word E L) F :=
  let lda := if trans then m else n
  let core_a := fun e =>
    if trans then a (start_m num core m + e) else a (start_m num core m * lda + e)
  if 0 < core_m num core m then
    single_core_gemv acc trans (core_m num core m) n alpha core_a lda x incx
      fun i => y (start_m num core m + i)
  else .plain []

end Code

theorem executed_around {α Loc F : Type} (before finish : List (Statement Loc F))
    (f : α → Statement Loc F) {n : Nat} (words : Nat → α) :
    executed (before.map .plain ++ (List.range n).map (fun _ => .pop f) ++ finish.map .plain)
        ((List.range n).map words) =
      before ++ (List.range n).map (fun j => f (words j)) ++ finish ∧
    pops (before.map .plain ++ (List.range n).map (fun _ => .pop f) ++ finish.map .plain) =
      ((List.range n).map words).length := by
  have pop : ((List.range n).map fun _ => (.pop f : StreamStep α Loc F)) =
      ((List.range n).map fun _ => f).map .pop := by
    rw [List.map_map]
    rfl
  have taken : pops (before.map .plain ++ (List.range n).map fun _ => .pop f) =
      ((List.range n).map words).length := by
    rw [pops_append, pops_plain, pop, pops_pops]
    simp
  constructor
  · rw [← List.append_nil ((List.range n).map words), executed_append taken, executed_plain,
      ← List.nil_append ((List.range n).map words), executed_append (pops_plain before),
      executed_plain, pop, executed_pops _ _ (by simp), List.zipWith_map, List.zipWith_self]
  · rw [pops_append, taken, pops_plain, Nat.add_zero]

/-! ## Rows -/

section Rows

variable {E L F : Type} [DecidableEq E] [DecidableEq L] [CommSemiring F] {acc out : Word E L}
  {trans : Bool} {m n lda incx : Nat} {alpha : F} {a x y u v : Nat → Word E L}
  {mem : Word E L → F}

/-- A dot product in a register. -/
def dot (acc : Word E L) (n : Nat) (u v : Nat → Word E L) : List (Step E L F) :=
  [put acc 0] ++ (List.range n).map fun j => fmadd acc (u j) (v j) acc

theorem dot_value (apart : ∀ j < n, u j ≠ acc ∧ v j ≠ acc) :
    after Statement.run (dot acc n u v) mem acc = ∑ j ∈ Finset.range n, mem (u j) * mem (v j) := by
  have cleared : (dot acc n u v : List (Step E L F)) =
      ((List.range 1).map fun _ => put acc 0) ++ dots 1 n (fun _ => acc) u (fun _ => v) := by
    rw [dots_one]
    rfl
  rw [cleared]
  exact (after_cleared (w := 1) (fun _ => acc) (fun r inside r' inside' _ => by omega)
    (fun j small _ _ => (apart j small).1) (fun _ _ j small _ _ => (apart j small).2) mem).1 0
    Nat.one_pos

theorem dot_within : Statement.Within (fun z => ∃ j < n, z = u j ∨ z = v j) (fun z => z = acc)
    (dot acc n u v : List (Step E L F)) := by
  refine Semantics.within_append.mpr
    ⟨Semantics.within_cons.mpr ⟨⟨nofun, fun _ written => written⟩, Semantics.within_nil⟩,
      Semantics.within_map.mpr fun j small => ⟨?_, fun _ written => written⟩⟩
  rintro z (rfl | rfl | rfl)
  · exact .inl ⟨j, small, .inl rfl⟩
  · exact .inl ⟨j, small, .inr rfl⟩
  · exact .inr rfl

/-- A row of the product. -/
def row (acc : Word E L) (n : Nat) (alpha : F) (u v : Nat → Word E L) (out : Word E L) :
    List (Step E L F) :=
  dot acc n u v ++ [scale acc alpha, transfer out acc]

theorem row_value (apart : ∀ j < n, u j ≠ acc ∧ v j ≠ acc) :
    after Statement.run (row acc n alpha u v out) mem out =
      (∑ j ∈ Finset.range n, mem (u j) * mem (v j)) * alpha := by
  rw [row, after_append, ← dot_value apart]
  exact (Function.update_self _ _ _).trans (Function.update_self _ _ _)

theorem row_within : Statement.Within (fun z => ∃ j < n, z = u j ∨ z = v j)
    (fun z => z = acc ∨ z = out) (row acc n alpha u v out) := by
  refine Semantics.within_append.mpr ⟨dot_within.mono (fun _ => .inl) fun _ => .inl, ?_⟩
  refine Semantics.within_cons.mpr ⟨⟨?_, fun _ written => .inl written⟩,
    Semantics.within_cons.mpr ⟨⟨?_, fun _ written => .inr written⟩, Semantics.within_nil⟩⟩
  · rintro z (rfl | rfl | rfl) <;> exact .inr (.inl rfl)
  · rintro z (rfl | rfl | rfl) <;> exact .inr (.inl rfl)

/-! ### The streams -/

/-- Where an element of the matrix is stored. -/
def element (trans : Bool) (lda i j : Nat) : Nat := if trans then j * lda + i else i * lda + j

theorem ssr0_eq (some_row : 0 < m) (some_term : 0 < n) (few_rows : m ≤ 2 ^ 32)
    (few_terms : n ≤ 2 ^ 32) : ssr0 trans m n lda =
      (List.range m).flatMap fun i => (List.range n).map fun j => element trans lda i j := by
  cases trans
  · simp [ssr0, streamed, iterations_eq some_row few_rows, iterations_eq some_term few_terms,
      element, List.map_eq_flatMap]
  · simp [ssr0, streamed, iterations_eq some_row few_rows, iterations_eq some_term few_terms,
      element, List.map_eq_flatMap, Nat.add_comm]

theorem ssr1_eq (some_row : 0 < m) (some_term : 0 < n) (few_rows : m ≤ 2 ^ 32)
    (few_terms : n ≤ 2 ^ 32) : ssr1 m n incx =
      (List.range m).flatMap fun _ => (List.range n).map fun j => j * incx := by
  simp [ssr1, streamed, iterations_eq some_row few_rows, iterations_eq some_term few_terms,
    List.map_eq_flatMap]

variable (acc trans lda incx alpha a x y) in
/-- **A core computes its rows, and its streams are then at their ends.** -/
theorem single_core_gemv_rows (some_row : 0 < m) (some_term : 0 < n) (few_rows : m ≤ 2 ^ 32)
    (few_terms : n ≤ 2 ^ 32) :
    (single_core_gemv acc trans m n alpha a lda x incx y).code =
        (List.range m).flatMap (fun i =>
          row acc n alpha (fun j => a (element trans lda i j)) (fun j => x (j * incx)) (y i)) ∧
      ∀ stream ∈ (single_core_gemv acc trans m n alpha a lda x incx y).streams,
        stream.length = pops (single_core_gemv acc trans m n alpha a lda x incx y).steps := by
  have words : (single_core_gemv acc trans m n alpha a lda x incx y).words =
      (List.range m).flatMap fun i => (List.range n).map fun j =>
        (a (element trans lda i j), x (j * incx)) := by
    simp only [single_core_gemv, ssr0_eq some_row some_term few_rows few_terms,
      ssr1_eq some_row some_term few_rows few_terms, List.map_flatMap, List.map_map]
    rw [(zip_flatMap fun i _ => by simp).1]
    simp only [List.zip_map']
    rfl
  have one (i : Nat) := executed_around [put acc 0] [scale acc alpha, transfer (y i) acc]
    (fun ft : Word E L × Word E L => fmadd acc ft.1 ft.2 acc) (n := n)
    fun j => (a (element trans lda i j), x (j * incx))
  obtain ⟨rows, taken⟩ := executed_flatMap (n := m) _ _ fun i _ => (one i).2
  have code : (single_core_gemv acc trans m n alpha a lda x incx y).steps =
      (List.range m).flatMap fun i => [put acc 0].map .plain ++
        (List.range n).map (fun _ => .pop fun ft => fmadd acc ft.1 ft.2 acc) ++
        [scale acc alpha, transfer (y i) acc].map .plain := by
    rw [single_core_gemv, iterations_eq some_term few_terms]
  constructor
  · rw [Variant.code, words, code]
    exact rows.trans (List.flatMap_congr fun i _ => (one i).1)
  · have length : (ssr0 trans m n lda).length = (ssr1 m n incx).length := by
      simp [ssr0_eq some_row some_term few_rows few_terms,
        ssr1_eq some_row some_term few_rows few_terms]
    rw [code, taken, ← words, single_core_gemv, List.length_zip, List.length_map, List.length_map,
      length, Nat.min_self]
    simp [length]

/-! ### The rows of a core -/

def rows (num core m : Nat) : List Nat :=
  (List.range (core_m num core m)).map fun i => start_m num core m + i

theorem mem_rows {num core i : Nat} : i ∈ rows num core m ↔
    start_m num core m ≤ i ∧ i < start_m num core m + core_m num core m := by
  simp only [rows, List.mem_map, List.mem_range]
  constructor
  · rintro ⟨k, small, rfl⟩
    omega
  · rintro ⟨low, high⟩
    exact ⟨i - start_m num core m, by omega, by omega⟩

/-- **The rows are dealt out**, whatever the number of cores. -/
theorem rows_dealt {num : Nat} (some_core : 0 < num) :
    Dealt num m fun core => rows num core m := by
  have parts : m / num * num + m % num = m := Nat.div_add_mod' m num
  have before {core core' : Nat} (less : core < core') (worker : core' < num) {i : Nat}
      (mine : i ∈ rows num core m) : i ∉ rows num core' m := by
    have next : (core + 1) * (m / num) ≤ core' * (m / num) := Nat.mul_le_mul_right _ less
    rw [mem_rows, start_m, core_m, if_neg (by omega)] at mine
    rw [mem_rows, start_m]
    rw [Nat.succ_mul] at next
    omega
  constructor
  · exact fun core => List.nodup_range.map fun _ _ same => Nat.add_left_cancel same
  · intro core worker core' worker' i mine theirs
    rcases Nat.lt_trichotomy core core' with less | same | more
    · exact absurd theirs (before less worker' mine)
    · exact same
    · exact absurd mine (before more worker theirs)
  · intro core worker i mine
    have most : (core + 1) * (m / num) ≤ num * (m / num) := Nat.mul_le_mul_right _ worker
    rw [mem_rows, start_m, core_m] at mine
    rw [Nat.succ_mul, Nat.mul_comm num] at most
    split at mine <;> omega
  · intro i small
    by_cases last : i < (num - 1) * (m / num)
    · have some : 0 < m / num := Nat.pos_of_mul_pos_left (Nat.zero_lt_of_lt last)
      have core : i / (m / num) < num - 1 := Nat.div_lt_of_lt_mul (by rwa [Nat.mul_comm])
      have split := Nat.div_add_mod' i (m / num)
      have rest := Nat.mod_lt i some
      refine ⟨i / (m / num), by omega, mem_rows.mpr ?_⟩
      rw [start_m, core_m, if_neg (by omega)]
      omega
    · refine ⟨num - 1, by omega, mem_rows.mpr ?_⟩
      have whole : (num - 1) * (m / num) + m / num = m / num * num := by
        rw [← Nat.succ_mul, Nat.succ_eq_add_one, Nat.sub_add_cancel some_core, Nat.mul_comm]
      rw [start_m, core_m, if_pos rfl]
      omega

/-- Row `i` of the product. -/
def gemvRow (acc : Word E L) (trans : Bool) (m n : Nat) (alpha : F) (a x : Nat → Word E L)
    (incx : Nat) (y : Nat → Word E L) (i : Nat) : List (Step E L F) :=
  row acc n alpha (fun j => a (element trans (if trans then m else n) i j)) (fun j => x (j * incx))
    (y i)

/-- **A core computes its rows of the product**, and its streams are then at their ends. -/
theorem gemv_rows {num core : Nat} (some_core : 0 < num) (worker : core < num) (some_term : 0 < n)
    (few_rows : m ≤ 2 ^ 32) (few_terms : n ≤ 2 ^ 32) :
    (gemv num core acc trans m n alpha a x incx y).code =
        (rows num core m).flatMap (gemvRow acc trans m n alpha a x incx y) ∧
      ∀ stream ∈ (gemv num core acc trans m n alpha a x incx y).streams,
        stream.length = pops (gemv num core acc trans m n alpha a x incx y).steps := by
  by_cases none : core_m num core m = 0
  · have nothing : gemv num core acc trans m n alpha a x incx y = .plain [] := by
      rw [gemv, if_neg (by omega)]
    rw [nothing, rows, none]
    exact ⟨rfl, nofun⟩
  · have few : core_m num core m ≤ m := by
      have last := (rows_dealt some_core (m := m)).inside core worker
        (start_m num core m + core_m num core m - 1) (mem_rows.mpr (by omega))
      omega
    have something : gemv num core acc trans m n alpha a x incx y =
        single_core_gemv acc trans (core_m num core m) n alpha
          (fun e => if trans then a (start_m num core m + e)
            else a (start_m num core m * (if trans then m else n) + e))
          (if trans then m else n) x incx fun i => y (start_m num core m + i) := by
      rw [gemv, if_pos (by omega)]
    obtain ⟨code, streams⟩ := single_core_gemv_rows acc trans (if trans then m else n) incx alpha
      (fun e => if trans then a (start_m num core m + e)
        else a (start_m num core m * (if trans then m else n) + e)) x
      (fun i => y (start_m num core m + i)) (m := core_m num core m) (n := n) (by omega)
      some_term (by omega) few_terms
    rw [something]
    refine ⟨code.trans ?_, streams⟩
    rw [rows, List.flatMap_map]
    refine List.flatMap_congr fun i _ => ?_
    rw [gemvRow]
    congr 1
    funext j
    cases trans
    · simp [element, Nat.add_mul, Nat.add_assoc]
    · simp [element, Nat.add_left_comm]

/-! ### What a core leaves -/

/-- The register and the three arrays do not overlap. -/
structure Apart (acc : Word E L) (a x y : Nat → Word E L) : Prop where
  acc_a : ∀ e, a e ≠ acc
  acc_x : ∀ e, x e ≠ acc
  acc_y : ∀ e, y e ≠ acc
  y_a : ∀ i e, y i ≠ a e
  y_x : ∀ i e, y i ≠ x e
  y_inj : ∀ i j, y i = y j → i = j

theorem gemv_within {num core : Nat} (some_core : 0 < num) (worker : core < num)
    (some_term : 0 < n) (few_rows : m ≤ 2 ^ 32) (few_terms : n ≤ 2 ^ 32) :
    Statement.Within (fun z => (∃ e, z = a e) ∨ ∃ e, z = x e)
      (fun z => z = acc ∨ ∃ i ∈ rows num core m, z = y i)
      (gemv num core acc trans m n alpha a x incx y).code := by
  rw [(gemv_rows some_core worker some_term few_rows few_terms).1]
  intro s member
  obtain ⟨i, mine, inner⟩ := List.mem_flatMap.mp member
  refine row_within.mono ?_ ?_ s inner
  · rintro z ⟨j, _, rfl | rfl⟩
    · exact .inl (.inl ⟨_, rfl⟩)
    · exact .inl (.inr ⟨_, rfl⟩)
  · rintro z (rfl | rfl)
    · exact .inl rfl
    · exact .inr ⟨i, mine, rfl⟩

/-- What a core writes, whatever its streams deliver. -/
theorem gemv_targets {num core : Nat} {s : Step E L F} {z : Word E L}
    (member : s ∈ (gemv num core acc trans m n alpha a x incx y).code) (written : s.writes z) :
    z = acc ∨ ∃ i, z = y i := by
  rw [gemv] at member
  split at member
  · rcases mem_executed member with plain | ⟨f, pop, word, rfl⟩
    · simp only [single_core_gemv, List.map_cons, List.map_nil, List.mem_flatMap, List.mem_append,
        List.mem_cons, List.mem_map, StreamStep.plain.injEq, reduceCtorEq, List.not_mem_nil,
        and_false, exists_false, or_false] at plain
      obtain ⟨i, _, rfl | rfl | rfl⟩ := plain
      · exact .inl written
      · exact .inl written
      · exact .inr ⟨_, written⟩
    · simp only [single_core_gemv, List.map_cons, List.map_nil, List.mem_flatMap, List.mem_append,
        List.mem_cons, List.mem_map, StreamStep.pop.injEq, reduceCtorEq, List.not_mem_nil,
        or_false, false_or] at pop
      obtain ⟨_, _, _, _, rfl⟩ := pop
      exact .inl written
  · simp at member

/-- **What a core leaves in its rows.** -/
theorem gemv_value {num core : Nat} (some_core : 0 < num) (worker : core < num)
    (some_term : 0 < n) (few_rows : m ≤ 2 ^ 32) (few_terms : n ≤ 2 ^ 32) (apart : Apart acc a x y)
    {i : Nat} (mine : i ∈ rows num core m) :
    after Statement.run (gemv num core acc trans m n alpha a x incx y).code mem (y i) =
      (∑ j ∈ Finset.range n, mem (a (element trans (if trans then m else n) i j)) *
        mem (x (j * incx))) * alpha := by
  rw [(gemv_rows some_core worker some_term few_rows few_terms).1]
  obtain ⟨mem', same, result⟩ := after_one (S := Statement.semantics)
    (f := gemvRow acc trans m n alpha a x incx y) mine ((rows_dealt some_core).nodup core) mem
  have keep (z : Word E L) (no_acc : z ≠ acc) (own : ∀ i', z = y i' → i' = i) :
      OthersKeep Statement.semantics (rows num core m)
        (gemvRow acc trans m n alpha a x incx y) i z := by
    intro i' _ other s inner written
    rcases (row_within s inner).2 z written with here | here
    · exact no_acc here
    · exact other (own i' here)
  refine (result _ (keep _ (apart.acc_y i) fun i' here => (apart.y_inj _ _ here).symm)).trans ?_
  refine (row_value fun j _ => ⟨apart.acc_a _, apart.acc_x _⟩).trans ?_
  refine congrArg (· * alpha) (Finset.sum_congr rfl fun j _ => ?_)
  rw [same _ (keep _ (apart.acc_a _) fun i' here => absurd here.symm (apart.y_a i' _)),
    same _ (keep _ (apart.acc_x _) fun i' here => absurd here.symm (apart.y_x i' _))]

end Rows

/-! ## The call -/

section Call

variable {F : Type} [CommSemiring F]

inductive GemvArray
  | a
  | x
  | y
  deriving DecidableEq

abbrev Mem := Word Empty GemvArray

/-- What core `core` of `num` does. -/
def gemvCore (num : Nat) (trans : Bool) (m n : Nat) (alpha : F) (incx core : Nat) :
    Variant (Mem × Mem) Mem F :=
  gemv num core (.own core 0) trans m n alpha (.loc .a 0) (.loc .x 0) incx (.loc .y 0)

/-- After all cores have called `gemv`, the result is the product and nothing else has changed; each
element is written by one core, and no core leaves an element in its streams. -/
structure Multiplies (num : Nat) (trans : Bool) (m n : Nat) (alpha : F) (incx : Nat) : Prop where
  product : ∀ mem s, Ends num (fun core => (gemvCore num trans m n alpha incx core).code) mem s →
    ∀ i < m, s.memory (.loc .y 0 i) = alpha * ∑ j ∈ Finset.range n,
      mem (.loc .a 0 (if trans then j * m + i else i * n + j)) * mem (.loc .x 0 (j * incx))
  frame : ∀ mem s, Ends num (fun core => (gemvCore num trans m n alpha incx core).code) mem s →
    ∀ z, Shared z → (∀ i < m, z ≠ .loc .y 0 i) → s.memory z = mem z
  once : ∀ i < m, ∃! core, core < num ∧
    ∃ s ∈ (gemvCore num trans m n alpha incx core).code, s.writes (.loc .y 0 i)
  consumed : ∀ core < num, ∀ stream ∈ (gemvCore num trans m n alpha incx core).streams,
    stream.length = pops (gemvCore num trans m n alpha incx core).steps

variable {num m n incx : Nat} {trans : Bool} {alpha : F}

theorem gemv_apart (core : Nat) :
    Apart (.own core 0 : Mem) (.loc .a 0) (.loc .x 0) (.loc .y 0) where
  acc_a := nofun
  acc_x := nofun
  acc_y := nofun
  y_a := nofun
  y_x := nofun
  y_inj i j same := by injection same

variable (incx trans alpha) in
theorem gemv_parted (some_core : 0 < num) (some_term : 0 < n) (few_rows : m ≤ 2 ^ 32)
    (few_terms : n ≤ 2 ^ 32) :
    Parted num (fun core => (gemvCore num trans m n alpha incx core).code)
      (fun z => (∃ e, z = .loc .a 0 e) ∨ ∃ e, z = .loc .x 0 e)
      fun core z => ∃ i ∈ rows num core m, z = .loc .y 0 i where
  within core worker := by
    refine (gemv_within some_core worker some_term few_rows few_terms).mono (fun _ => .inl) ?_
    rintro z (rfl | here)
    · exact .inr ⟨0, rfl⟩
    · exact .inl here
  operand := by
    rintro z (⟨e, rfl⟩ | ⟨e, rfl⟩) <;> exact shared_loc _ _ _
  result := by
    rintro core worker z ⟨i, _, rfl⟩
    exact ⟨shared_loc _ _ _, nofun⟩
  apart := by
    rintro core worker core' worker' other z ⟨i, mine, rfl⟩ ⟨i', theirs, same⟩
    injection same with _ _ same
    exact other ((rows_dealt some_core).once core worker core' worker' i mine (same ▸ theirs))

/-- Who writes an element. -/
theorem gemv_writes (some_core : 0 < num) (some_term : 0 < n) (few_rows : m ≤ 2 ^ 32)
    (few_terms : n ≤ 2 ^ 32) {core : Nat} (worker : core < num) (i : Nat) :
    (∃ s ∈ (gemvCore num trans m n alpha incx core).code, s.writes (.loc .y 0 i)) ↔
      i ∈ rows num core m := by
  constructor
  · rintro ⟨s, member, written⟩
    rcases (gemv_within some_core worker some_term few_rows few_terms s member).2 _ written with
      own | ⟨i', mine, same⟩
    · cases own
    · injection same with _ _ same
      exact same ▸ mine
  · intro mine
    refine ⟨transfer (.loc .y 0 i) (.own core 0), ?_, rfl⟩
    rw [gemvCore, (gemv_rows some_core worker some_term few_rows few_terms).1]
    exact List.mem_flatMap.mpr ⟨i, mine, by simp [gemvRow, row]⟩

/-- **All cores together multiply.** -/
theorem gemv_multiplies (some_core : 0 < num) (some_term : 0 < n) (few_rows : m ≤ 2 ^ 32)
    (few_terms : n ≤ 2 ^ 32) : Multiplies num trans m n alpha incx := by
  have parted := gemv_parted incx trans alpha some_core some_term few_rows few_terms
  have dealt := rows_dealt (m := m) some_core
  constructor
  · intro mem s ended i small
    obtain ⟨core, worker, mine⟩ := dealt.all i small
    have here := (parted.ends some_core ended).1 core worker _ ⟨i, mine, rfl⟩
    rw [here, gemvCore, gemv_value some_core worker some_term few_rows few_terms (gemv_apart core)
      mine, mul_comm]
    cases trans <;> rfl
  · intro mem s ended z shared outside
    refine (parted.ends some_core ended).2 z shared fun core worker ⟨i, mine, here⟩ => ?_
    exact outside i (dealt.inside core worker i mine) here
  · intro i small
    obtain ⟨core, worker, mine⟩ := dealt.all i small
    refine ⟨core, ⟨worker, ?_⟩, fun core' other => ?_⟩
    · exact (gemv_writes some_core some_term few_rows few_terms worker i).mpr mine
    · have theirs := (gemv_writes some_core some_term few_rows few_terms other.1 i).mp other.2
      exact dealt.once core' other.1 core worker i theirs mine
  · exact fun core worker => (gemv_rows some_core worker some_term few_rows few_terms).2

end Call

end SnitchCluster.Kernels.Gemv
