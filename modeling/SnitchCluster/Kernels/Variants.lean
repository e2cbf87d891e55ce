/-
# Kernels.Variants -- what kernel variants are made of

The variants of a BLAS kernel distribute rows over the cores in their own way, compute several
elements at once and may take their operands from streams.  As statements on words they come down
to three facts: what one item of a loop writes is what it leaves (`after_one`), interleaved
multiply-adds are dot products (`after_dots`), and a core that takes its operands from streams runs
the code with the streams' words filled in (`executed_flatMap`).

A pointer is a function from the index of an element to its word.
-/
import Mathlib.Algebra.BigOperators.Ring.Finset
import SnitchCluster.Kernels.Gemm
import SnitchCluster.Kernels.TileTransfers

namespace SnitchCluster.Kernels.Blas

open Theory Theory.Loops Theory.Supersteps

universe u v w

/-! ## Items of a loop -/

section Items

variable {A : Type u} {Loc : Type v} {Val : Type w} {S : Semantics A Loc Val} {ι : Type}
  {items : List ι} {f : ι → List A} {k : ι}

/-- No item but `k` writes the word. -/
def OthersKeep (S : Semantics A Loc Val) (items : List ι) (f : ι → List A) (k : ι) (x : Loc) :
    Prop := ∀ i ∈ items, i ≠ k → ∀ a ∈ f i, ¬S.writes a x

/-- **What one item writes is what it leaves**, from a memory that the others have not changed
where they do not write. -/
theorem after_one (member : k ∈ items) (apart : items.Nodup) (m : Loc → Val) :
    ∃ m', (∀ x, OthersKeep S items f k x → m' x = m x) ∧
      ∀ x, OthersKeep S items f k x →
        after S.run (items.flatMap f) m x = after S.run (f k) m' x := by
  obtain ⟨before, behind, rfl⟩ := List.append_of_mem member
  have fresh : k ∉ before ∧ k ∉ behind := by
    rw [List.nodup_middle] at apart
    simpa using (List.nodup_cons.mp apart).1
  refine ⟨after S.run (before.flatMap f) m, fun x kept => ?_, fun x kept => ?_⟩
  · refine after_frame fun a inner => ?_
    obtain ⟨i, first, inner⟩ := List.mem_flatMap.mp inner
    exact kept i (by simp [first]) (fun same => fresh.1 (same ▸ first)) a inner
  · rw [List.flatMap_append, List.flatMap_cons, after_append, after_append]
    refine after_frame fun a inner => ?_
    obtain ⟨i, later, inner⟩ := List.mem_flatMap.mp inner
    exact kept i (by simp [later]) (fun same => fresh.2 (same ▸ later)) a inner

end Items

/-! ## Statements -/

section Statements

variable {Loc F : Type} [DecidableEq Loc]

/-- `x = v` -/
def put (x : Loc) (v : F) : Statement Loc F where
  run m := Function.update m x v
  reads _ := False
  writes a := a = x
  frame _ _ other := Function.update_of_ne other _ _
  determined _ _ _ a here := by
    subst here
    rw [Function.update_self, Function.update_self]

/-- `fmadd.d` -/
def fmadd [Semiring F] (x a b c : Loc) : Statement Loc F := .assign x a b c fun u v w => u * v + w

/-- `multiply_opt` -/
def multiply_opt [Semiring F] [DecidableEq F] (multiplicand multiplier : F) : F :=
  if multiplier ≠ 0 then multiplicand * multiplier else 0

@[simp] theorem multiply_opt_eq [Semiring F] [DecidableEq F] (x y : F) :
    multiply_opt x y = x * y := by
  unfold multiply_opt
  split
  · rfl
  · next zero => rw [not_not.mp zero, mul_zero]

omit [DecidableEq Loc] in
/-- Statements that each write a word of their own, which no other reads. -/
theorem after_items {ι : Type} {items : List ι} {p : ι → Loc} {S : ι → Statement Loc F}
    (apart : items.Nodup) (writes : ∀ i ∈ items, ∀ x, (S i).writes x → x = p i)
    (inj : ∀ i ∈ items, ∀ j ∈ items, p i = p j → i = j)
    (reads : ∀ i ∈ items, ∀ j ∈ items, i ≠ j → ¬(S i).reads (p j)) (m : Loc → F) :
    (∀ i ∈ items, after Statement.run (items.map S) m (p i) = (S i).run m (p i)) ∧
      ∀ x, (∀ i ∈ items, x ≠ p i) → after Statement.run (items.map S) m x = m x := by
  constructor
  · intro i member
    obtain ⟨m', same, result⟩ := after_one (S := Statement.semantics) (f := fun i => [S i])
      member apart m
    have keep : ∀ x, x = p i ∨ (S i).reads x →
        OthersKeep Statement.semantics items (fun i => [S i]) i x := by
      intro x here j other different a inner written
      obtain rfl : a = S j := List.mem_singleton.mp inner
      have target := writes j other x written
      rcases here with rfl | read
      · exact different (inj j other i member target.symm)
      · exact reads i member j other different.symm (target ▸ read)
    rw [List.map_eq_flatMap]
    refine (result (p i) (keep _ (.inl rfl))).trans ?_
    by_cases written : (S i).writes (p i)
    · exact (S i).determined m' m (fun x read => same x (keep x (.inr read))) _ written
    · exact ((S i).frame m' _ written).trans
        ((same _ (keep _ (.inl rfl))).trans ((S i).frame m _ written).symm)
  · intro x outside
    refine after_frame (S := Statement.semantics) fun a member written => ?_
    obtain ⟨i, inside, rfl⟩ := List.mem_map.mp member
    exact outside i inside (writes i inside x written)

section Each

variable {w : Nat} {p : Nat → Loc} {S : Nat → Statement Loc F} {m : Loc → F}

omit [DecidableEq Loc] in
theorem after_each (writes : ∀ r < w, ∀ x, (S r).writes x → x = p r)
    (inj : ∀ r < w, ∀ r' < w, p r = p r' → r = r')
    (reads : ∀ r < w, ∀ r' < w, r ≠ r' → ¬(S r).reads (p r')) {r : Nat} (inside : r < w) :
    after Statement.run ((List.range w).map S) m (p r) = (S r).run m (p r) := by
  refine (after_items List.nodup_range ?_ ?_ ?_ m).1 r (List.mem_range.mpr inside)
  · exact fun r member => writes r (List.mem_range.mp member)
  · exact fun r member r' other => inj r (List.mem_range.mp member) r' (List.mem_range.mp other)
  · exact fun r member r' other => reads r (List.mem_range.mp member) r' (List.mem_range.mp other)

omit [DecidableEq Loc] in
theorem after_each_frame (writes : ∀ r < w, ∀ x, (S r).writes x → x = p r) {x : Loc}
    (outside : ∀ r < w, x ≠ p r) : after Statement.run ((List.range w).map S) m x = m x := by
  refine after_frame (S := Statement.semantics) fun a member written => ?_
  obtain ⟨r, inside, rfl⟩ := List.mem_map.mp member
  exact outside r (List.mem_range.mp inside) (writes r (List.mem_range.mp inside) x written)

end Each

/-! ## Dot products -/

section Dots

variable [Semiring F]

/-- `w` dot products of `n` terms, term by term. -/
def dots (w n : Nat) (acc : Nat → Loc) (u : Nat → Loc) (v : Nat → Nat → Loc) :
    List (Statement Loc F) :=
  (List.range n).flatMap fun k => (List.range w).map fun r => fmadd (acc r) (u k) (v r k) (acc r)

variable {w n : Nat} {acc : Nat → Loc} {u : Nat → Loc} {v : Nat → Nat → Loc} {m : Loc → F}

/-- **Interleaved multiply-adds are dot products.** -/
theorem after_dots (inj : ∀ r < w, ∀ r' < w, acc r = acc r' → r = r')
    (apart_u : ∀ k < n, ∀ r < w, u k ≠ acc r)
    (apart_v : ∀ r < w, ∀ k < n, ∀ r' < w, v r k ≠ acc r') :
    (∀ r < w, after Statement.run (dots w n acc u v) m (acc r) =
      m (acc r) + ∑ k ∈ Finset.range n, m (u k) * m (v r k)) ∧
    ∀ x, (∀ r < w, x ≠ acc r) → after Statement.run (dots w n acc u v) m x = m x := by
  induction n with
  | zero => exact ⟨fun r _ => by simp [dots], fun x _ => rfl⟩
  | succ n ih =>
    obtain ⟨sums, frame⟩ := ih (fun k small => apart_u k (Nat.lt_succ_of_lt small))
      fun r inside k small => apart_v r inside k (Nat.lt_succ_of_lt small)
    have last : dots w (n + 1) acc u v = dots w n acc u v ++
        (List.range w).map fun r => (fmadd (acc r) (u n) (v r n) (acc r) : Statement Loc F) := by
      rw [dots, List.range_succ, List.flatMap_append, List.flatMap_singleton]
      rfl
    have writes : ∀ r < w, ∀ x, (fmadd (acc r) (u n) (v r n) (acc r) :
        Statement Loc F).writes x → x = acc r := fun _ _ _ written => written
    rw [last]
    refine ⟨fun r inside => ?_, fun x outside => ?_⟩
    · rw [after_append, after_each writes inj ?_ inside]
      · have here := Function.update_self (acc r)
          (after Statement.run (dots w n acc u v) m (u n) *
            after Statement.run (dots w n acc u v) m (v r n) +
              after Statement.run (dots w n acc u v) m (acc r))
          (after Statement.run (dots w n acc u v) m)
        refine here.trans ?_
        rw [frame _ (apart_u n (Nat.lt_succ_self n)), frame _ (apart_v r inside n
          (Nat.lt_succ_self n)), sums r inside, Finset.sum_range_succ, add_comm, add_assoc]
      · rintro r inside r' other different (read | read | read)
        · exact apart_u n (Nat.lt_succ_self n) r' other read.symm
        · exact apart_v r inside n (Nat.lt_succ_self n) r' other read.symm
        · exact different (inj r inside r' other read.symm)
    · rw [after_append, after_each_frame writes outside, frame x outside]

end Dots

end Statements

/-! ## Kernels of dot products

A kernel computes the elements of its result from dot products, those of the rows that are dealt to
a core on that core, `w` columns at a time.  Rows have `N` columns and dot products `K` terms. -/

section Products

variable {E L F : Type} [Semiring F]

/-- A block of code computes `g` of what it finds in `out` and of the dot products. -/
structure Computes (w K core : Nat) (u : Nat → Word E L) (v : Nat → Nat → Word E L)
    (out : Nat → Word E L) (g : F → F → F) (code : List (Step E L F)) : Prop where
  within : Statement.Within (fun x => ∃ k < K, x = u k ∨ ∃ r < w, x = v r k)
    (fun x => (∃ r, x = .own core r) ∨ ∃ r < w, x = out r) code
  value : ∀ m, ∀ r < w, after Statement.run code m (out r) =
    g (m (out r)) (∑ k ∈ Finset.range K, m (u k) * m (v r k))

/-- The code of a core. -/
def products (w N : Nat) (rows : List Nat) (code : Nat → Nat → List (Step E L F)) :
    List (Step E L F) :=
  rows.flatMap fun i => (dealtRows w 0 N).flatMap fun j => code i j

/-- The rows of the cores, each on one core. -/
structure Dealt (num M : Nat) (rows : Nat → List Nat) : Prop where
  nodup : ∀ core, (rows core).Nodup
  once : ∀ core < num, ∀ core' < num, ∀ i ∈ rows core, i ∈ rows core' → core = core'
  inside : ∀ core < num, ∀ i ∈ rows core, i < M
  all : ∀ i < M, ∃ core < num, i ∈ rows core

theorem dealtRows_dealt {num M : Nat} (some_core : 0 < num) :
    Dealt num M fun core => dealtRows num core M where
  nodup _ := List.nodup_range.map fun _ _ same =>
    Nat.eq_of_mul_eq_mul_right some_core (Nat.add_right_cancel same)
  once core worker core' worker' i mine theirs := by
    rw [← ((mem_dealtRows worker).mp mine).2, ((mem_dealtRows worker').mp theirs).2]
  inside _ worker i mine := ((mem_dealtRows worker).mp mine).1
  all i small := ⟨i % num, Nat.mod_lt i some_core,
    (mem_dealtRows (Nat.mod_lt i some_core)).mpr ⟨small, rfl⟩⟩

/-- The first columns of the blocks. -/
theorem mem_columns {w N j : Nat} (some : 0 < w) (whole : w ∣ N) :
    j ∈ dealtRows w 0 N ↔ w ∣ j ∧ j + w ≤ N := by
  obtain ⟨n, rfl⟩ := whole
  rw [mem_dealtRows some, Nat.dvd_iff_mod_eq_zero]
  constructor
  · rintro ⟨below, rest⟩
    obtain ⟨k, rfl⟩ := Nat.dvd_of_mod_eq_zero rest
    have next : w * (k + 1) ≤ w * n := Nat.mul_le_mul_left w (Nat.lt_of_mul_lt_mul_left below)
    exact ⟨rest, next⟩
  · rintro ⟨rest, below⟩
    exact ⟨by omega, rest⟩

variable {num M w N K bX bY bZ : Nat} {X Y Z : L} {g : F → F → F} {rows : Nat → List Nat}
  {code : Nat → Nat → Nat → List (Step E L F)} {m : Word E L → F}

/-- The blocks of a kernel with operands `X` and `Y` and result `Z`. -/
def Blocks (num w N K bX bY bZ : Nat) (X Y Z : L) (g : F → F → F) (rows : Nat → List Nat)
    (code : Nat → Nat → Nat → List (Step E L F)) : Prop :=
  ∀ core < num, ∀ i ∈ rows core, ∀ j ∈ dealtRows w 0 N,
    Computes w K core (fun k => .loc X bX (i * K + k)) (fun r k => .loc Y bY ((j + r) * K + k))
      (fun r => .loc Z bZ (i * N + (j + r))) g (code core i j)

section

variable (blocks : Blocks num w N K bX bY bZ X Y Z g rows code) (dealt : Dealt num M rows)
    (some : 0 < w) (whole : w ∣ N)

include blocks dealt some whole

/-- **The cores compute the whole result**, each element from its own row and column. -/
theorem Blocks.value (apart_x : Z ≠ X) (apart_y : Z ≠ Y)
    {i j : Nat} (row : i < M) (column : j < N) :
    after Statement.run ((List.range num).flatMap fun core => products w N (rows core) (code core))
        m (.loc Z bZ (i * N + j)) = g (m (.loc Z bZ (i * N + j)))
        (∑ k ∈ Finset.range K, m (.loc X bX (i * K + k)) * m (.loc Y bY (j * K + k))) := by
  obtain ⟨core, worker, mine⟩ := dealt.all i row
  have rest := Nat.mod_lt j some
  have split : j / w * w + j % w = j := Nat.div_add_mod' j w
  have first : j / w * w ∈ dealtRows w 0 N := by
    refine (mem_dealtRows some).mpr ⟨by omega, Nat.mul_mod_left _ _⟩
  -- the blocks of all cores as one list
  have flat : ((List.range num).flatMap fun core => products w N (rows core) (code core)) =
      ((List.range num).sigma fun core => rows core ×ˢ dealtRows w 0 N).flatMap
        fun b => code b.1 b.2.1 b.2.2 := by
    simp only [List.sigma, SProd.sprod, List.product, products, List.flatMap_assoc,
      List.flatMap_map]
  have nodup : ((List.range num).sigma fun core => rows core ×ˢ dealtRows w 0 N).Nodup := by
    exact List.nodup_range.sigma fun core =>
      (dealt.nodup core).product (nodup_dealtRows some)
  have member : (⟨core, i, j / w * w⟩ : (_ : Nat) × Nat × Nat) ∈
      (List.range num).sigma fun core => rows core ×ˢ dealtRows w 0 N := by
    simp [List.mem_sigma, worker, mine, first]
  obtain ⟨m', same, result⟩ := after_one (S := Statement.semantics)
    (f := fun b => code b.1 b.2.1 b.2.2) member nodup m
  -- who writes an element is its block, and nobody writes an operand
  have keep : ∀ x : Word E L, (∀ core r, x ≠ .own core r) →
      (∀ i' j', x = .loc Z bZ (i' * N + j') → j' < N → i' = i ∧ j' = j) →
        OthersKeep Statement.semantics
          ((List.range num).sigma fun core => rows core ×ˢ dealtRows w 0 N)
          (fun b => code b.1 b.2.1 b.2.2) ⟨core, i, j / w * w⟩ x := by
    rintro x shared element ⟨core', i', j'⟩ other different a inner written
    simp only [List.mem_sigma, List.mem_range, List.mem_product] at other
    obtain ⟨worker', mine', first'⟩ := other
    rcases ((blocks core' worker' i' mine' j' first').within a inner).2 x written with
      ⟨r, rfl⟩ | ⟨r, inside, rfl⟩
    · exact shared core' r rfl
    · obtain ⟨multiple, room⟩ := (mem_columns some whole).mp first'
      obtain ⟨rfl, here⟩ := element i' (j' + r) rfl (by omega)
      obtain ⟨k, rfl⟩ := multiple
      obtain rfl : core' = core := dealt.once core' worker' core worker i' mine' mine
      have block : k = j / w := by
        rw [← here, Nat.mul_add_div some, Nat.div_eq_of_lt inside, Nat.add_zero]
      exact different (by rw [block, Nat.mul_comm])
  have out : OthersKeep Statement.semantics _ _ _ (.loc Z bZ (i * N + j) : Word E L) :=
    keep _ (by simp) fun i' j' here column' => by
      injection here with _ _ here
      obtain ⟨rows, columns⟩ := grid_inj column column' here
      exact ⟨rows.symm, columns.symm⟩
  have value := (blocks core worker i mine _ first).value m' (j % w) rest
  rw [split] at value
  rw [flat]
  refine (result _ out).trans (value.trans ?_)
  rw [same _ out]
  refine congrArg _ (Finset.sum_congr rfl fun k _ => ?_)
  rw [same (.loc X bX (i * K + k))
      (keep _ (by simp) fun _ _ here => absurd here (by simp [apart_x.symm])),
    same (.loc Y bY (j * K + k))
      (keep _ (by simp) fun _ _ here => absurd here (by simp [apart_y.symm]))]

/-- What a core touches. -/
theorem Blocks.within {core : Nat} (worker : core < num) : Statement.Within
      (fun x => (∃ e < M * K, x = .loc X bX e) ∨ ∃ e < N * K, x = .loc Y bY e)
      (fun x => (∃ i ∈ rows core, ∃ j < N, x = .loc Z bZ (i * N + j)) ∨ ∃ r, x = .own core r)
      (products w N (rows core) (code core)) := by
  intro a member
  simp only [products, List.mem_flatMap] at member
  obtain ⟨i, mine, j, first, inner⟩ := member
  obtain ⟨-, room⟩ := (mem_columns some whole).mp first
  have row := dealt.inside core worker i mine
  obtain ⟨reads, writes⟩ := (blocks core worker i mine j first).within a inner
  have target : ∀ x : Word E L,
      ((∃ r, x = .own core r) ∨ ∃ r < w, x = .loc Z bZ (i * N + (j + r))) →
        (∃ i ∈ rows core, ∃ j < N, x = .loc Z bZ (i * N + j)) ∨ ∃ r, x = .own core r := by
    rintro x (own | ⟨r, inside, rfl⟩)
    · exact .inr own
    · exact .inl ⟨i, mine, j + r, by omega, rfl⟩
  refine ⟨fun x read => ?_, fun x written => target x (writes x written)⟩
  rcases reads x read with ⟨k, term, rfl | ⟨r, inside, rfl⟩⟩ | here
  · exact .inl (.inl ⟨_, grid_lt row term, rfl⟩)
  · exact .inl (.inr ⟨_, grid_lt (by omega) term, rfl⟩)
  · exact .inr (target x here)

end

end Products

section Blocks

variable {E L F : Type} [DecidableEq E] [DecidableEq L] [Semiring F] {w K core : Nat}
  {u out : Nat → Word E L} {v : Nat → Nat → Word E L} {g : F → F → F} {finish : List (Step E L F)}

/-- Dot products in registers, and what is done with them. -/
def block (w K core : Nat) (u : Nat → Word E L) (v : Nat → Nat → Word E L)
    (finish : List (Step E L F)) : List (Step E L F) :=
  (List.range w).map (fun r => put (.own core r) 0) ++ dots w K (.own core) u v ++ finish

/-- What is done with the dot products. -/
structure Finishes (w core : Nat) (out : Nat → Word E L) (g : F → F → F)
    (finish : List (Step E L F)) : Prop where
  within : Statement.Within (fun _ => False)
    (fun x => (∃ r, x = .own core r) ∨ ∃ r < w, x = out r) finish
  value : ∀ m, ∀ r < w, after Statement.run finish m (out r) = g (m (out r)) (m (.own core r))

/-- No register. -/
def Shared (x : Word E L) : Prop := ∀ core r, x ≠ .own core r

theorem within_puts {acc : Nat → Word E L} {R : Word E L → Prop} :
    Statement.Within R (fun x => ∃ r < w, x = acc r)
      ((List.range w).map fun r => (put (acc r) 0 : Step E L F)) :=
  Semantics.within_map.mpr fun r inside =>
    ⟨fun _ read => read.elim, fun _ written => ⟨r, inside, written⟩⟩

theorem within_dots {acc : Nat → Word E L} :
    Statement.Within (fun x => ∃ k < K, x = u k ∨ ∃ r < w, x = v r k) (fun x => ∃ r < w, x = acc r)
      (dots w K acc u v : List (Step E L F)) := by
  refine Semantics.within_flatMap.mpr fun k term => Semantics.within_map.mpr fun r inside => ?_
  refine ⟨?_, fun x written => ⟨r, inside, written⟩⟩
  rintro x (rfl | rfl | rfl)
  · exact .inl ⟨k, term, .inl rfl⟩
  · exact .inl ⟨k, term, .inr ⟨r, inside, rfl⟩⟩
  · exact .inr ⟨r, inside, rfl⟩

/-- Cleared accumulators hold the dot products. -/
theorem after_cleared (acc : Nat → Word E L) (inj : ∀ r < w, ∀ r' < w, acc r = acc r' → r = r')
    (apart_u : ∀ k < K, ∀ r < w, u k ≠ acc r) (apart_v : ∀ r < w, ∀ k < K, ∀ r' < w, v r k ≠ acc r')
    (m : Word E L → F) :
    (∀ r < w,
        after Statement.run ((List.range w).map (fun r => put (acc r) 0) ++ dots w K acc u v) m
          (acc r) = ∑ k ∈ Finset.range K, m (u k) * m (v r k)) ∧
      ∀ x, (∀ r < w, x ≠ acc r) →
        after Statement.run ((List.range w).map (fun r => put (acc r) 0) ++ dots w K acc u v) m x =
          m x := by
  have frame : ∀ x, (∀ r < w, x ≠ acc r) →
      after Statement.run ((List.range w).map fun r => (put (acc r) 0 : Step E L F)) m x = m x :=
    fun x outside => after_each_frame (fun _ _ _ written => written) outside
  obtain ⟨sums, frame'⟩ := after_dots (m := after Statement.run
    ((List.range w).map fun r => (put (acc r) 0 : Step E L F)) m) inj apart_u apart_v
  refine ⟨fun r inside => ?_, fun x outside => ?_⟩
  · have zero : after Statement.run ((List.range w).map fun r => (put (acc r) 0 : Step E L F)) m
        (acc r) = 0 :=
      (after_each (fun _ _ _ written => written) inj (fun _ _ _ _ _ read => read) inside).trans
        (Function.update_self _ _ _)
    rw [after_append, sums r inside, zero, zero_add]
    exact Finset.sum_congr rfl fun k term => by
      rw [frame _ (apart_u k (Finset.mem_range.mp term)),
        frame _ (apart_v r inside k (Finset.mem_range.mp term))]
  · rw [after_append, frame' x outside, frame x outside]

/-- **Blocks with registers.** -/
theorem computes_block (shared_u : ∀ k, Shared (u k)) (shared_v : ∀ r k, Shared (v r k))
    (shared_out : ∀ r, Shared (out r)) (finishes : Finishes w core out g finish) :
    Computes w K core u v out g (block w K core u v finish) := by
  have own : ∀ x : Word E L, (∃ r < w, x = .own core r) →
      (∃ r, x = .own core r) ∨ ∃ r < w, x = out r := fun x ⟨r, _, here⟩ => .inl ⟨r, here⟩
  constructor
  · refine Semantics.within_append.mpr ⟨Semantics.within_append.mpr ⟨?_, ?_⟩, ?_⟩
    · exact within_puts.mono (fun _ => .inl) own
    · exact within_dots.mono (fun _ => .inl) own
    · exact finishes.within.mono (fun _ no => no.elim) fun _ => id
  · intro m r inside
    obtain ⟨sums, frame⟩ := after_cleared (w := w) (K := K) (u := u) (v := v) (.own core)
      (fun _ _ _ _ same => by injection same) (fun k _ r _ => shared_u k core r)
      (fun r _ k _ r' _ => shared_v r k core r') m
    rw [block, after_append, finishes.value _ r inside, sums r inside,
      frame _ fun r' _ => shared_out r core r']

/-- **Blocks that accumulate in place.** -/
theorem computes_in_place (inj : ∀ r < w, ∀ r' < w, out r = out r' → r = r')
    (apart_u : ∀ k < K, ∀ r < w, u k ≠ out r)
    (apart_v : ∀ r < w, ∀ k < K, ∀ r' < w, v r k ≠ out r') :
    Computes w K core u v out (fun _ s => s)
      ((List.range w).map (fun r => put (out r) 0) ++ dots w K out u v : List (Step E L F)) where
  within := Semantics.within_append.mpr
    ⟨within_puts.mono (fun _ => .inl) fun _ => .inr, within_dots.mono (fun _ => .inl) fun _ => .inr⟩
  value m r inside := (after_cleared out inj apart_u apart_v m).1 r inside

omit [DecidableEq E] [DecidableEq L] in
theorem shared_loc (X : L) (b e : Nat) : Shared (.loc X b e : Word E L) :=
  fun _ _ same => by cases same

variable {num N bX bY bZ : Nat} {X Y Z : L} {rows : Nat → List Nat}

omit [DecidableEq E] [DecidableEq L] in
theorem loc_inj (i j : Nat) : ∀ r < w, ∀ r' < w,
    (.loc Z bZ (i + (j + r)) : Word E L) = .loc Z bZ (i + (j + r')) → r = r' := by
  intro r _ r' _ same
  injection same with _ _ same
  omega

/-- A kernel of blocks with registers. -/
theorem blocks_of_finishes (finish : Nat → (Nat → Word E L) → List (Step E L F))
    (finishes : ∀ core out, (∀ r < w, ∀ r' < w, out r = out r' → r = r') → (∀ r, Shared (out r)) →
      Finishes w core out g (finish core out)) :
    Blocks num w N K bX bY bZ X Y Z g rows fun core i j =>
      block w K core (fun k => .loc X bX (i * K + k)) (fun r k => .loc Y bY ((j + r) * K + k))
        (finish core fun r => .loc Z bZ (i * N + (j + r))) := fun core _ i _ j _ =>
  computes_block (fun _ => shared_loc X bX _) (fun _ _ => shared_loc Y bY _)
    (fun _ => shared_loc Z bZ _) (finishes core _ (loc_inj (i * N) j) fun _ => shared_loc Z bZ _)

/-- A kernel that accumulates in place. -/
theorem blocks_in_place (apart_x : Z ≠ X) (apart_y : Z ≠ Y) :
    Blocks num w N K bX bY bZ X Y Z (fun _ s => s) rows fun _ i j =>
      (List.range w).map (fun r => put (.loc Z bZ (i * N + (j + r))) 0) ++
        (dots w K (fun r => .loc Z bZ (i * N + (j + r))) (fun k => .loc X bX (i * K + k))
          fun r k => .loc Y bY ((j + r) * K + k) : List (Step E L F)) := by
  intro core _ i _ j _
  refine computes_in_place (loc_inj (i * N) j) (fun _ _ _ _ same => ?_) fun _ _ _ _ _ _ same => ?_
  · injection same with array
    exact apart_x array.symm
  · injection same with array
    exact apart_y array.symm

end Blocks

/-! ## Streams -/

section Streams

/-- How often a loop runs whose bound is written less one to a register of 32 bits. -/
def iterations (bound : Nat) : Nat := (bound + (2 ^ 32 - 1)) % 2 ^ 32 + 1

theorem iterations_eq {bound : Nat} (some : 0 < bound) (small : bound ≤ 2 ^ 32) :
    iterations bound = bound := by
  unfold iterations
  omega

/-- The elements of a programmed stream, by bounds and strides, the outermost loop first. -/
def streamed : List (Nat × Nat) → Nat → List Nat
  | [], p => [p]
  | (bound, stride) :: inner, p =>
    (List.range (iterations bound)).flatMap fun i => streamed inner (p + i * stride)

/-- A stream starts at its pointer, whatever the bounds. -/
theorem head_mem_streamed (loops : List (Nat × Nat)) (p : Nat) : p ∈ streamed loops p := by
  induction loops generalizing p with
  | nil => exact List.mem_singleton_self p
  | cons loop inner ih =>
    refine List.mem_flatMap.mpr ⟨0, List.mem_range.mpr (Nat.succ_pos _), ?_⟩
    simpa using ih p

variable {α β : Type} {Loc F : Type}

/-- `snrt_ssr_repeat` -/
def repeated (count : Nat) (stream : List α) : List α :=
  stream.flatMap (List.replicate (iterations count))

/-- A statement, or one that takes the next words of the streams. -/
inductive StreamStep (α Loc F : Type)
  | plain (s : Statement Loc F)
  | pop (f : α → Statement Loc F)

/-- What a core executes; it waits for ever when a stream is at its end. -/
def executed : List (StreamStep α Loc F) → List α → List (Statement Loc F)
  | [], _ => []
  | .plain s :: steps, words => s :: executed steps words
  | .pop _ :: _, [] => []
  | .pop f :: steps, word :: words => f word :: executed steps words

/-- How many words of each stream are taken. -/
def pops : List (StreamStep α Loc F) → Nat
  | [] => 0
  | .plain _ :: steps => pops steps
  | .pop _ :: steps => pops steps + 1

theorem pops_append (steps steps' : List (StreamStep α Loc F)) :
    pops (steps ++ steps') = pops steps + pops steps' := by
  induction steps with
  | nil => simp [pops]
  | cons step steps ih =>
    cases step with
    | plain s => exact ih
    | pop f => simp [pops, ih, Nat.add_right_comm]

theorem executed_append {steps steps' : List (StreamStep α Loc F)} {words words' : List α}
    (taken : pops steps = words.length) :
    executed (steps ++ steps') (words ++ words') =
      executed steps words ++ executed steps' words' := by
  induction steps generalizing words with
  | nil =>
    obtain rfl : words = [] := List.length_eq_zero_iff.mp taken.symm
    rfl
  | cons step steps ih =>
    cases step with
    | plain s => exact congrArg (s :: ·) (ih taken)
    | pop f =>
      cases words with
      | nil => cases taken
      | cons word words => exact congrArg (f word :: ·) (ih (Nat.succ.inj taken))

theorem executed_plain (ss : List (Statement Loc F)) :
    executed (ss.map .plain : List (StreamStep α Loc F)) [] = ss := by
  induction ss with
  | nil => rfl
  | cons s ss ih => exact congrArg (s :: ·) ih

theorem pops_plain (ss : List (Statement Loc F)) :
    pops (ss.map .plain : List (StreamStep α Loc F)) = 0 := by
  induction ss with
  | nil => rfl
  | cons s ss ih => exact ih

theorem executed_pops (fs : List (α → Statement Loc F)) (words : List α)
    (taken : fs.length = words.length) :
    executed (fs.map .pop) words = List.zipWith (fun f word => f word) fs words := by
  induction fs generalizing words with
  | nil => simp [executed]
  | cons f fs ih =>
    cases words with
    | nil => cases taken
    | cons word words => exact congrArg (f word :: ·) (ih words (Nat.succ.inj taken))

theorem pops_pops (fs : List (α → Statement Loc F)) : pops (fs.map .pop) = fs.length := by
  induction fs with
  | nil => rfl
  | cons f fs ih => exact congrArg (· + 1) ih

theorem mem_executed {s : Statement Loc F} {steps : List (StreamStep α Loc F)} {words : List α}
    (member : s ∈ executed steps words) :
    .plain s ∈ steps ∨ ∃ f, .pop f ∈ steps ∧ ∃ word, s = f word := by
  induction steps generalizing words with
  | nil => cases member
  | cons step steps ih =>
    have later {words : List α} (member : s ∈ executed steps words) :
        .plain s ∈ step :: steps ∨ ∃ f, .pop f ∈ step :: steps ∧ ∃ word, s = f word := by
      rcases ih member with plain | ⟨f, inside, word, here⟩
      · exact .inl (List.mem_cons_of_mem _ plain)
      · exact .inr ⟨f, List.mem_cons_of_mem _ inside, word, here⟩
    cases step with
    | plain s' =>
      rcases List.mem_cons.mp member with rfl | member
      · exact .inl List.mem_cons_self
      · exact later member
    | pop f =>
      cases words with
      | nil => cases member
      | cons word words =>
        rcases List.mem_cons.mp member with rfl | member
        · exact .inr ⟨f, List.mem_cons_self, word, rfl⟩
        · exact later member

/-- **Loops take their words iteration by iteration.** -/
theorem executed_flatMap {n : Nat} (steps : Nat → List (StreamStep α Loc F))
    (words : Nat → List α) (taken : ∀ i < n, pops (steps i) = (words i).length) :
    executed ((List.range n).flatMap steps) ((List.range n).flatMap words) =
        (List.range n).flatMap (fun i => executed (steps i) (words i)) ∧
      pops ((List.range n).flatMap steps) = ((List.range n).flatMap words).length := by
  induction n with
  | zero => exact ⟨rfl, rfl⟩
  | succ n ih =>
    obtain ⟨result, length⟩ := ih fun i small => taken i (Nat.lt_succ_of_lt small)
    have last := taken n (Nat.lt_succ_self n)
    simp only [List.range_succ, List.flatMap_append, List.flatMap_singleton]
    exact ⟨by rw [executed_append length, result],
      by rw [pops_append, length, last, List.length_append]⟩

/-- Streams side by side. -/
theorem zip_flatMap {n : Nat} {f : Nat → List α} {g : Nat → List β}
    (level : ∀ i < n, (f i).length = (g i).length) :
    ((List.range n).flatMap f).zip ((List.range n).flatMap g) =
        (List.range n).flatMap (fun i => (f i).zip (g i)) ∧
      ((List.range n).flatMap f).length = ((List.range n).flatMap g).length := by
  induction n with
  | zero => exact ⟨rfl, rfl⟩
  | succ n ih =>
    obtain ⟨result, length⟩ := ih fun i small => level i (Nat.lt_succ_of_lt small)
    have last := level n (Nat.lt_succ_self n)
    simp only [List.range_succ, List.flatMap_append, List.flatMap_singleton]
    exact ⟨by rw [List.zip_append length, result],
      by rw [List.length_append, List.length_append, length, last]⟩

/-- What a variant does on a core: its steps, the words that its streams deliver together, and the
streams as they are programmed. -/
structure Variant (α Loc F : Type) where
  steps : List (StreamStep α Loc F)
  words : List α
  streams : List (List Loc)

namespace Variant

def code (v : Variant α Loc F) : List (Statement Loc F) := executed v.steps v.words

/-- Without streams. -/
def plain (code : List (Statement Loc F)) : Variant α Loc F := ⟨code.map .plain, [], []⟩

@[simp] theorem plain_code (code : List (Statement Loc F)) :
    (plain code : Variant α Loc F).code = code := executed_plain code

/-- The core touches the operands and what it has for itself; its streams deliver operands, and are
at their ends when the core is. -/
structure Confined {E L : Type} (v : Variant α (Word E L) F) (operands : Word E L → Prop)
    (core : Nat) : Prop where
  touches : ∀ s ∈ v.code, ∀ x, s.reads x ∨ s.writes x → operands x ∨ ∃ r, x = .own core r
  streams : ∀ stream ∈ v.streams, stream.length = pops v.steps ∧ ∀ x ∈ stream, operands x

end Variant

end Streams

/-! ## Calls -/

section Calls

variable {E L F : Type} {num core : Nat} {code : Nat → List (Step E L F)} {R : Word E L → Prop}
  {W : Nat → Word E L → Prop} {outcome : (Word E L → F) → Word E L → F}

/-- The cores in a call of a kernel. -/
def call (num : Nat) (code : Nat → List (Step E L F)) : Program Unit (Step E L F) where
  agents := num
  schedule := [()]
  code _ := code
  waits _ _ _ := true

/-- Some interleaving of a call from `m` ends in `s`. -/
def Ends (num : Nat) (code : Nat → List (Step E L F)) (m : Word E L → F)
    (s : Supersteps.State (Word E L) F) : Prop :=
  ((call num code).machine Statement.semantics).Reachable (Program.start m) s ∧
    ∀ core < num, 1 ≤ (s.place core).1

/-- Whatever the interleaving, `outcome` is what the cores leave in memory. -/
def Leaves (num : Nat) (code : Nat → List (Step E L F))
    (outcome : (Word E L → F) → Word E L → F) : Prop :=
  ∀ m s, Ends num code m s → ∀ x, Shared x → s.memory x = outcome m x

/-- Each core reads operands and writes a part of the result. -/
structure Parted (num : Nat) (code : Nat → List (Step E L F)) (R : Word E L → Prop)
    (W : Nat → Word E L → Prop) : Prop where
  within : ∀ core < num, Statement.Within R (fun x => W core x ∨ ∃ r, x = .own core r) (code core)
  operand : ∀ x, R x → Shared x
  result : ∀ core < num, ∀ x, W core x → Shared x ∧ ¬R x
  apart : ∀ core < num, ∀ core' < num, core ≠ core' → ∀ x, W core x → ¬W core' x

theorem Parted.raceFree (parted : Parted num code R W) :
    (call num code).RaceFree Statement.semantics := by
  intro _ _ core worker core' worker' other s member s' member' x written
  have mine := (parted.within core worker s member).2 x written
  have alien : ¬R x ∧ ¬(W core' x ∨ ∃ r, x = .own core' r) := by
    rcases mine with mine | ⟨r, rfl⟩
    · obtain ⟨shared, fresh⟩ := parted.result core worker x mine
      refine ⟨fresh, ?_⟩
      rintro (theirs | ⟨r, rfl⟩)
      · exact parted.apart core worker core' worker' other x mine theirs
      · exact shared core' r rfl
    · refine ⟨fun read => parted.operand _ read core r rfl, ?_⟩
      rintro (theirs | ⟨r', same⟩)
      · exact (parted.result core' worker' _ theirs).1 core r rfl
      · injection same with same
        exact other same
  obtain ⟨reads, writes⟩ := parted.within core' worker' s' member'
  exact ⟨fun read => (reads x read).elim alien.1 alien.2, fun written => alien.2 (writes x written)⟩

/-- **A call leaves what the cores leave one after the other.** -/
theorem Parted.leaves (parted : Parted num code R W) (some_core : 0 < num)
    (value : ∀ m x, Shared x →
      after Statement.run ((List.range num).flatMap code) m x = outcome m x) :
    Leaves num code outcome := by
  rintro m s ⟨reached, ended⟩ x shared
  have all : (call num code).AllWait := fun _ _ _ => rfl
  have reached : ((call num code).machine Statement.semantics).Reaches
      ((call num code).Awaits fun _ _ _ => false) (Program.start m) s :=
    reached.mono fun _ _ _ _ _ _ _ _ needed => by cases needed
  rw [Program.memory_done parted.raceFree (all.guarded _) reached some_core ended]
  refine Eq.trans ?_ (value m x shared)
  rw [after_range]
  rfl

/-- **What a core writes is what it leaves**, and nothing else changes. -/
theorem Parted.ends (parted : Parted num code R W) (some_core : 0 < num) {m : Word E L → F}
    {s : Supersteps.State (Word E L) F} (ended : Ends num code m s) :
    (∀ core < num, ∀ x, W core x → s.memory x = after Statement.run (code core) m x) ∧
      ∀ x, Shared x → (∀ core < num, ¬W core x) → s.memory x = m x := by
  have all : (call num code).AllWait := fun _ _ _ => rfl
  have reached : ((call num code).machine Statement.semantics).Reaches
      ((call num code).Awaits fun _ _ _ => false) (Program.start m) s :=
    ended.1.mono fun _ _ _ _ _ _ _ _ needed => by cases needed
  have phase : (call num code).schedule[0]? = some () := rfl
  have done : s.memory = (call num code).phase Statement.semantics () m :=
    (Program.memory_done parted.raceFree (all.guarded _) reached some_core ended.2).trans
      (Program.reference_succ phase)
  rw [done]
  refine ⟨fun core worker x mine => ?_, fun x shared nobody => ?_⟩
  · refine parted.raceFree.phase_own (List.mem_singleton_self ()) worker m ?_
    intro core' worker' other a member written
    rcases (parted.within core' worker' a member).2 x written with theirs | ⟨r, own⟩
    · exact parted.apart core worker core' worker' other.symm x mine theirs
    · exact (parted.result core worker x mine).1 core' r own
  · refine Program.phase_frame m fun core worker a member written => ?_
    rcases (parted.within core worker a member).2 x written with theirs | ⟨r, own⟩
    · exact nobody core worker theirs
    · exact shared core r own

end Calls

section Products

variable {E L F : Type} [Semiring F] {num M w N K bX bY bZ : Nat} {X Y Z : L} {g : F → F → F}
  {rows : Nat → List Nat} {code : Nat → Nat → Nat → List (Step E L F)}

/-- What a kernel of dot products leaves. -/
def product [DecidableEq L] (M N K bX bY bZ : Nat) (X Y Z : L) (g : F → F → F)
    (m : Word E L → F) : Word E L → F
  | .loc z b e =>
    if z = Z ∧ b = bZ ∧ e < M * N then
      g (m (.loc z b e))
        (∑ k ∈ Finset.range K, m (.loc X bX (e / N * K + k)) * m (.loc Y bY (e % N * K + k)))
    else m (.loc z b e)
  | x => m x

theorem Blocks.parted (blocks : Blocks num w N K bX bY bZ X Y Z g rows code)
    (dealt : Dealt num M rows) (some : 0 < w) (whole : w ∣ N) (apart_x : Z ≠ X) (apart_y : Z ≠ Y) :
    Parted num (fun core => products w N (rows core) (code core))
      (fun x => (∃ e < M * K, x = .loc X bX e) ∨ ∃ e < N * K, x = .loc Y bY e)
      fun core x => ∃ i ∈ rows core, ∃ j < N, x = .loc Z bZ (i * N + j) where
  within _ worker := blocks.within dealt some whole worker
  operand := by
    rintro x (⟨e, _, rfl⟩ | ⟨e, _, rfl⟩) core r same <;> cases same
  result := by
    rintro core _ x ⟨i, _, j, _, rfl⟩
    refine ⟨fun core r same => (by cases same), ?_⟩
    rintro (⟨e, _, same⟩ | ⟨e, _, same⟩) <;> injection same
    · exact apart_x ‹_›
    · exact apart_y ‹_›
  apart := by
    intro core worker core' worker' other x part part'
    obtain ⟨i, mine, j, column, rfl⟩ := part
    obtain ⟨i', theirs, j', column', same⟩ := part'
    injection same with _ _ same
    obtain ⟨rfl, -⟩ := grid_inj column column' same
    exact other (dealt.once core worker core' worker' i mine theirs)

/-- **All kernels of dot products leave the same**, however they deal out rows and blocks. -/
theorem Blocks.leaves [DecidableEq L] (blocks : Blocks num w N K bX bY bZ X Y Z g rows code)
    (dealt : Dealt num M rows) (some_core : 0 < num) (some : 0 < w) (whole : w ∣ N)
    (apart_x : Z ≠ X) (apart_y : Z ≠ Y) :
    Leaves num (fun core => products w N (rows core) (code core))
      (product M N K bX bY bZ X Y Z g) := by
  have parted := blocks.parted dealt some whole apart_x apart_y
  refine parted.leaves some_core fun m x shared => ?_
  -- who writes a word of memory writes an element of the result
  have frame : (∀ e < M * N, x ≠ .loc Z bZ e) → after Statement.run
      ((List.range num).flatMap fun core => products w N (rows core) (code core)) m x = m x := by
    refine fun outside => after_frame (S := Statement.semantics) fun a member written => ?_
    obtain ⟨core, inside, inner⟩ := List.mem_flatMap.mp member
    have worker := List.mem_range.mp inside
    rcases (parted.within core worker a inner).2 x written with
      ⟨i, mine, j, column, here⟩ | ⟨r, here⟩
    · exact outside _ (grid_lt (dealt.inside core worker i mine) column) here
    · exact shared core r here
  cases x with
  | ext x e => exact frame fun e _ same => by cases same
  | own core r => exact absurd rfl (shared core r)
  | loc z b e =>
    rw [product]
    split
    · next here =>
        obtain ⟨rfl, rfl, inside⟩ := here
        have positive : 0 < N := Nat.pos_of_mul_pos_left (Nat.zero_lt_of_lt inside)
        have value := blocks.value (m := m) dealt some whole apart_x apart_y
          (Nat.div_lt_of_lt_mul (Nat.mul_comm M N ▸ inside)) (Nat.mod_lt e positive)
        rwa [Nat.div_add_mod'] at value
    · next outside =>
        refine frame fun e' inside same => outside ?_
        injection same with array buffer element
        exact ⟨array, buffer, element ▸ inside⟩

end Products

end SnitchCluster.Kernels.Blas
