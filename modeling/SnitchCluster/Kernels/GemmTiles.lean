/-
# Kernels.GemmTiles -- the tiles of a multiplication, over clusters and buffers

`gemm` of `sw/kernels/blas/gemm/src/gemm.h`, from the transfers of the tiles to their
accumulation: which tile a cluster loads, computes and stores in an iteration, in which buffer,
and who waits for whom.  The tile kernel computes `c := a * b + beta * c` exactly, and
`snrt_global_reduction_dma` adds up the tiles of the clusters that take part, each of which waits
for the others.

The bookkeeping of a proof is carried along and means nothing to the code: `copy` says whose copy
of `C` a cluster works on where all clusters compute all of `C`, in one place (`shared`), and a
transfer says whether what it moves is ever `used`.  A tile that is stored before it is complete
is stored again, unless it is stored onto itself, and a tile of `C` that is loaded to be
overwritten is not looked at.  `words`
gives the steps their meaning and ignores both; `known` tracks which words can be relied on.
What is known is so (`knows_step`).

With `partition_banks` a buffer lies in lines of `elems_per_line` elements, in banks of its own,
and a row of a tile in whole lines.  The index of a word in its buffer is then that of its line and
its place in the line.
-/
import Mathlib.Algebra.BigOperators.Ring.Finset
import SnitchCluster.Kernels.Gemm
import SnitchCluster.Theory.Supersteps

namespace SnitchCluster.Kernels.GemmTiles

open Theory Theory.Loops Theory.Supersteps

/-- `gemm_args_t`, and how many clusters and compute cores there are.  `a` is the array each
cluster's pointer is to. -/
structure GemmArgs where
  prec : Nat
  m_tiles : Nat
  n_tiles : Nat
  k_tiles : Nat
  parallelize_m : Bool
  parallelize_k : Bool
  load_a : Bool
  load_b : Bool
  load_c : Bool
  double_buffer : Bool
  partition_banks : Bool
  transb : Bool
  m : Nat
  n : Nat
  k : Nat
  a : Nat → Nat
  lda : Nat
  ldb : Nat
  beta : Nat
  ldc : Nat
  snrt_cluster_num : Nat
  snrt_cluster_compute_core_num : Nat

/-- Words in memory: the matrices, and the buffers of a cluster, by element. -/
inductive Loc
  | a (array e : Nat)
  | b (e : Nat)
  | c (copy e : Nat)
  | la (cluster buff_idx e : Nat)
  | lb (cluster buff_idx e : Nat)
  | lc (cluster buff_idx e : Nat)
  deriving DecidableEq

/-- What the data mover and the compute cores do to a word. -/
inductive Op
  | transfer (x y : Loc) (used : Bool)
  | clear (x : Loc)
  /-- `x = beta * x + a[0] * b[0] + ...`, `k` products. -/
  | multiply (beta : Nat) (x : Loc) (k : Nat) (a b : Nat → Loc)
  /-- `x = y[0] + ... + y[n - 1]`. -/
  | add (x : Loc) (n : Nat) (y : Nat → Loc)

/-! ## The meaning of the steps -/

section Meaning

variable {F : Type} [CommSemiring F]

/-- All copies of `C` are one. -/
def shared : Loc → Loc
  | .c _ e => .c 0 e
  | x => x

namespace Op

/-- The word a step writes. -/
def target : Op → Loc
  | transfer x _ _ | clear x | multiply _ x _ _ _ | add x _ _ => x

/-- The words a step depends on. -/
def Uses : Op → Loc → Prop
  | transfer _ y used, x => used ∧ x = y
  | clear _, _ => False
  | multiply _ acc k a b, x => x = acc ∨ ∃ p < k, x = a p ∨ x = b p
  | add _ n y, x => ∃ i < n, x = y i

def word (m : Loc → F) : Op → F
  | transfer _ y _ => m (shared y)
  | clear _ => 0
  | multiply beta x k a b =>
    beta * m (shared x) + ∑ p ∈ Finset.range k, m (shared (a p)) * m (shared (b p))
  | add _ n y => ∑ i ∈ Finset.range n, m (shared (y i))

/-- The value where it can be relied on. -/
def known (m : Loc → Option F) : Op → Option F
  | transfer _ y used => if used then m y else none
  | clear _ => some 0
  | multiply beta x k a b =>
    if (beta = 0 ∨ (m x).isSome) ∧ ∀ p < k, (m (a p)).isSome ∧ (m (b p)).isSome then
      some (beta * (m x).getD 0 + ∑ p ∈ Finset.range k, (m (a p)).getD 0 * (m (b p)).getD 0)
    else none
  | add _ n y =>
    if ∀ i < n, (m (y i)).isSome then some (∑ i ∈ Finset.range n, (m (y i)).getD 0) else none

theorem known_congr {m m' : Loc → Option F} (op : Op) (same : ∀ x, op.Uses x → m x = m' x) :
    op.known m = op.known m' := by
  cases op with
  | transfer x y used =>
    cases used with
    | false => rfl
    | true => exact same y ⟨rfl, rfl⟩
  | clear x => rfl
  | multiply beta x k a b =>
    have acc : m x = m' x := same x (.inl rfl)
    have left : ∀ p < k, m (a p) = m' (a p) := fun p inside => same _ (.inr ⟨p, inside, .inl rfl⟩)
    have right : ∀ p < k, m (b p) = m' (b p) := fun p inside => same _ (.inr ⟨p, inside, .inr rfl⟩)
    have sums : ∑ p ∈ Finset.range k, (m (a p)).getD 0 * (m (b p)).getD 0 =
        ∑ p ∈ Finset.range k, (m' (a p)).getD 0 * (m' (b p)).getD 0 :=
      Finset.sum_congr rfl fun p inside => by
        rw [left p (Finset.mem_range.mp inside), right p (Finset.mem_range.mp inside)]
    have all : (∀ p < k, (m (a p)).isSome = true ∧ (m (b p)).isSome = true) ↔
        ∀ p < k, (m' (a p)).isSome = true ∧ (m' (b p)).isSome = true :=
      forall₂_congr fun p inside => by rw [left p inside, right p inside]
    simp only [known, acc, sums, all]
  | add x n y =>
    have terms : ∀ i < n, m (y i) = m' (y i) := fun i inside => same _ ⟨i, inside, rfl⟩
    have sums : ∑ i ∈ Finset.range n, (m (y i)).getD 0 =
        ∑ i ∈ Finset.range n, (m' (y i)).getD 0 :=
      Finset.sum_congr rfl fun i inside => by rw [terms i (Finset.mem_range.mp inside)]
    have all : (∀ i < n, (m (y i)).isSome = true) ↔ ∀ i < n, (m' (y i)).isSome = true :=
      forall₂_congr fun i inside => by rw [terms i inside]
    simp only [known, sums, all]

end Op

/-- The steps on the memory. -/
def words (F : Type) [CommSemiring F] : Semantics Op Loc F where
  run op m := Function.update m (shared op.target) (op.word m)
  reads _ _ := True
  writes op x := x = shared op.target
  frame _ _ _ other := Function.update_of_ne other _ _
  determined op m m' same x here := by
    obtain rfl : m = m' := funext fun x => same x trivial
    rfl

/-- The steps on what is known of it. -/
def known (F : Type) [CommSemiring F] : Semantics Op Loc (Option F) where
  run op m := Function.update m op.target (op.known m)
  reads op x := op.Uses x
  writes op x := x = op.target
  frame _ _ _ other := Function.update_of_ne other _ _
  determined op m m' same x here := by
    subst here
    rw [Function.update_self, Function.update_self, op.known_congr same]

/-- What is known of each word is so; of a word of `C` in the copies below `W`, in one of them. -/
structure Knows (W : Nat) (m : Loc → F) (m' : Loc → Option F) : Prop where
  word : ∀ x, (∀ w e, x ≠ .c w e) → ∀ v ∈ m' x, m x = v
  copy : ∀ e, ∃ w < W, ∀ v ∈ m' (.c w e), m (.c 0 e) = v

/-- The words that a step may rely on: none of `C` that others write too. -/
def Private (W : Nat) : Loc → Prop
  | .c w _ => W = 1 ∧ w = 0
  | _ => True

/-- A step relies on private words only, or leaves its word as it is. -/
def Sound (W : Nat) : Op → Prop
  | .transfer x y used => used → Private W y ∨ x = y
  | .clear _ => True
  | .multiply beta x k a b => (beta ≠ 0 → Private W x) ∧ ∀ p < k, Private W (a p) ∧ Private W (b p)
  | .add _ n y => ∀ i < n, Private W (y i)

variable {W : Nat} {m : Loc → F} {m' : Loc → Option F} {op : Op} {x y : Loc}

theorem shared_of_ne (other : ∀ w e, x ≠ .c w e) : shared x = x := by
  cases x with
  | c w e => exact absurd rfl (other w e)
  | a | b | la | lb | lc => rfl

omit [CommSemiring F] in
theorem Knows.own (knows : Knows W m m') (own : Private W x) : ∀ v ∈ m' x, m (shared x) = v := by
  cases x with
  | c w e =>
    obtain ⟨rfl, rfl⟩ := own
    obtain ⟨w, below, copy⟩ := knows.copy e
    obtain rfl := Nat.lt_one_iff.mp below
    exact copy
  | a | b | la | lb | lc => exact knows.word _ (by simp)

/-- A known value is the word's. -/
theorem Knows.value (knows : Knows W m m') (sound : Sound W op)
    (moves : ∀ x y used, op = .transfer x y used → x ≠ y) : ∀ v ∈ op.known m', op.word m = v := by
  intro v known
  cases op with
  | transfer x y used =>
    cases used with
    | false => cases known
    | true => exact knows.own ((sound rfl).resolve_right (moves x y true rfl)) v known
  | clear x => exact Option.some.inj known
  | multiply beta x k a b =>
    simp only [Op.known, Option.mem_def, Option.ite_none_right_eq_some] at known
    obtain ⟨⟨acc, operands⟩, known⟩ := known
    have products : ∑ p ∈ Finset.range k, m (shared (a p)) * m (shared (b p)) =
        ∑ p ∈ Finset.range k, (m' (a p)).getD 0 * (m' (b p)).getD 0 := by
      refine Finset.sum_congr rfl fun p inside => ?_
      have inside := Finset.mem_range.mp inside
      obtain ⟨u, left⟩ := Option.isSome_iff_exists.mp (operands p inside).1
      obtain ⟨w, right⟩ := Option.isSome_iff_exists.mp (operands p inside).2
      rw [knows.own (sound.2 p inside).1 u left, knows.own (sound.2 p inside).2 w right, left, right]
      rfl
    have scaled : (beta : F) * m (shared x) = beta * (m' x).getD 0 := by
      rcases acc with zero | some
      · rw [zero, Nat.cast_zero, zero_mul, zero_mul]
      · by_cases zero : beta = 0
        · rw [zero, Nat.cast_zero, zero_mul, zero_mul]
        · obtain ⟨u, value⟩ := Option.isSome_iff_exists.mp some
          rw [knows.own (sound.1 zero) u value, value]
          rfl
    rw [Op.word, products, scaled]
    exact Option.some.inj known
  | add x n y =>
    simp only [Op.known, Option.mem_def, Option.ite_none_right_eq_some] at known
    obtain ⟨terms, known⟩ := known
    rw [← Option.some.inj known, Op.word]
    refine Finset.sum_congr rfl fun i inside => ?_
    have inside := Finset.mem_range.mp inside
    obtain ⟨u, value⟩ := Option.isSome_iff_exists.mp (terms i inside)
    rw [knows.own (sound i inside) u value, value]
    rfl

/-- **What is known stays so.** -/
theorem knows_step (knows : Knows W m m') (sound : Sound W op)
    (within : ∀ w e, op.target = .c w e → w < W) :
    Knows W ((words F).run op m) ((known F).run op m') := by
  by_cases stays : ∃ x used, op = .transfer x x used
  · obtain ⟨x, used, rfl⟩ := stays
    have same : (words F).run (.transfer x x used) m = m := Function.update_eq_self _ _
    rw [same]
    cases used with
    | true =>
      have same' : (known F).run (.transfer x x true) m' = m' := Function.update_eq_self _ _
      rwa [same']
    | false =>
      refine ⟨fun y other v sure => ?_, fun e => ?_⟩
      · by_cases here : y = x
        · subst here
          rw [show (known F).run (.transfer y y false) m' y = none from Function.update_self _ _ _]
            at sure
          cases sure
        · exact knows.word y other v ((Function.update_of_ne here _ _).symm.trans sure)
      · obtain ⟨w, below, copy⟩ := knows.copy e
        refine ⟨w, below, fun v sure => ?_⟩
        by_cases here : Loc.c w e = x
        · subst here
          rw [show (known F).run (.transfer (.c w e) (.c w e) false) m' (.c w e) = none from
            Function.update_self _ _ _] at sure
          cases sure
        · exact copy v ((Function.update_of_ne here _ _).symm.trans sure)
  · have written : (known F).run op m' op.target = op.known m' := Function.update_self _ _ _
    have value := knows.value sound fun x y used is same => stays ⟨x, used, by rw [is, same]⟩
    refine ⟨fun y other v sure => ?_, fun e => ?_⟩
    · by_cases here : y = op.target
      · subst here
        rw [← shared_of_ne other]
        rw [written] at sure
        exact (Function.update_self _ _ _).trans (value v sure)
      · have apart : y ≠ shared op.target := by
          intro same
          cases target : op.target with
          | c w e =>
            rw [target] at same
            exact other 0 e same
          | a | b | la | lb | lc =>
            rw [target] at same
            exact here (same.trans target.symm)
        refine (Function.update_of_ne apart _ _).trans (knows.word y other v ?_)
        exact (Function.update_of_ne here _ _).symm.trans sure
    · obtain ⟨w, below, copy⟩ := knows.copy e
      by_cases here : ∃ w', op.target = .c w' e
      · obtain ⟨w', here⟩ := here
        refine ⟨w', within w' e here, fun v sure => ?_⟩
        have target : shared op.target = .c 0 e := by rw [here]; rfl
        rw [← target]
        rw [← here, written] at sure
        exact (Function.update_self _ _ _).trans (value v sure)
      · refine ⟨w, below, fun v sure => ?_⟩
        have apart : Loc.c 0 e ≠ shared op.target := by
          intro same
          cases target : op.target with
          | c w' e' =>
            rw [target] at same
            injection same with _ same
            exact here ⟨w', by rw [target, same]⟩
          | a | b | la | lb | lc =>
            rw [target] at same
            cases same
        refine (Function.update_of_ne apart _ _).trans (copy v ?_)
        exact (Function.update_of_ne (fun same => here ⟨w, same.symm⟩) _ _).symm.trans sure

end Meaning

/-! ## Tiles and buffers -/

namespace GemmArgs

variable (g : GemmArgs)

def tile_m : Nat := g.m / g.m_tiles

def tile_n : Nat := g.n / g.n_tiles

def tile_k : Nat := g.k / g.k_tiles

def cluster_m_tiles : Nat :=
  if g.parallelize_m then g.m_tiles / g.snrt_cluster_num else g.m_tiles

def cluster_k_tiles (c : Nat) : Nat :=
  if g.parallelize_k then
    g.k_tiles / g.snrt_cluster_num + if c < g.k_tiles % g.snrt_cluster_num then 1 else 0
  else g.k_tiles

def num_working_clusters : Nat :=
  if g.parallelize_k ∧ g.k_tiles / g.snrt_cluster_num = 0 then g.k_tiles % g.snrt_cluster_num
  else g.snrt_cluster_num

def num_tiles (c : Nat) : Nat := g.cluster_m_tiles * g.n_tiles * g.cluster_k_tiles c

/-- By how many iterations the computation of a tile comes after its transfer. -/
def lag : Nat := if g.double_buffer then 1 else 0

/-- The store of a tile is one iteration behind its computation. -/
def num_iters (c : Nat) : Nat := g.num_tiles c + (g.lag + 1)

/-! The tile of iteration `i` of cluster `c`, in the order `k`, `n`, `m`. -/

def idx_k (c i : Nat) : Nat := i % g.cluster_k_tiles c

def idx_mn (c i : Nat) : Nat := i / g.cluster_k_tiles c

def idx_n (c i : Nat) : Nat := g.idx_mn c i % g.n_tiles

def idx_m_abs (c i : Nat) : Nat :=
  g.idx_mn c i / g.n_tiles + if g.parallelize_m then c * g.cluster_m_tiles else 0

def idx_k_abs (c i : Nat) : Nat :=
  g.idx_k c i + if g.parallelize_k then c * g.cluster_k_tiles c else 0

/-- Buffers are switched with every iteration, those of `C` with every tile of `C`. -/
def buff_idx (i : Nat) : Nat := if g.double_buffer then i % 2 else 0

/-- The number of a working cluster's copy of `C`, where all compute all of it. -/
def copy (c : Nat) : Nat := if g.parallelize_m ∨ g.parallelize_k then 0 else c

/-- The elements in a line of the banks of a buffer, which has as many as there are compute cores. -/
def elems_per_line : Nat := g.snrt_cluster_compute_core_num * 8 / g.prec

/-- `calculate_partitioned_banks_lines`, by elements. -/
def calculate_partitioned_banks_lines (size : Nat) : Nat := size / g.elems_per_line

/-- Where the kernel looks for an element of a tile with rows of `row_size` elements, whose stride is
that of `calculate_partitioned_banks_stride`. -/
def element (row_size x1 x0 : Nat) : Nat :=
  if g.partition_banks then
    (x1 * g.calculate_partitioned_banks_lines row_size + x0 / g.elems_per_line) * g.elems_per_line +
      x0 % g.elems_per_line
  else x1 * row_size + x0

/-! `allocate_buffers`.  A preloaded matrix has no second buffer: its pointer is not set, here to
a buffer that nobody fills. -/

def la (c buff e : Nat) : Loc :=
  if ¬g.load_a ∧ buff = 0 then .a (g.a c) e else .la c buff e

def lb (c buff e : Nat) : Loc :=
  if ¬g.load_b ∧ buff = 0 then .b e else .lb c buff e

def lc (c buff e : Nat) : Loc :=
  if ¬g.load_c ∧ buff = 0 then .c (g.copy c) e else .lc c buff e

end GemmArgs

/-! ## The steps of the clusters -/

section Code

variable (g : GemmArgs)

/-- The words of a tile, row by row. -/
def tileOps (x1_size x0_size : Nat) (op : Nat → Nat → Op) : List Op :=
  (List.range x1_size).flatMap fun x1 => (List.range x0_size).map (op x1)

/-- Contiguous words. -/
def lineOps (size : Nat) (op : Nat → Op) : List Op := (List.range size).map op

/-- A contiguous tile to or from the lines of a buffer, in whole lines (`snrt_dma_1d_to_2d`). -/
def bankOps (size : Nat) (op : Nat → Op) : List Op :=
  lineOps (g.calculate_partitioned_banks_lines size * g.elems_per_line) op

/-- The tile of iteration `i`, complete after the last tile of `k`. -/
def storeC (c i : Nat) : List Op :=
  let complete := g.idx_k c i = g.cluster_k_tiles c - 1 ∨ ¬g.load_c
  if c = 0 ∨ ¬g.parallelize_k then
    if g.partition_banks then
      bankOps g (g.tile_m * g.tile_n) fun e =>
        .transfer (.c (g.copy c) (g.idx_m_abs c i * (g.tile_m * g.tile_n) + e))
          (g.lc c (g.buff_idx (g.idx_mn c i)) e) complete
    else
      tileOps g.tile_m g.tile_n fun r q =>
        .transfer (.c (g.copy c)
            (g.idx_n c i * g.tile_n + g.idx_m_abs c i * g.tile_m * g.ldc + (r * g.ldc + q)))
          (g.lc c (g.buff_idx (g.idx_mn c i)) (r * g.tile_n + q)) complete
  else []

def loadA (c i : Nat) : List Op :=
  if g.load_a then
    if g.partition_banks then
      bankOps g (g.tile_m * g.tile_k) fun e =>
        .transfer (.la c (g.buff_idx i) e)
          (.a (g.a c) (g.idx_m_abs c i * (g.tile_m * g.tile_k) + e)) true
    else
      tileOps g.tile_m g.tile_k fun r p =>
        .transfer (.la c (g.buff_idx i) (r * g.tile_k + p))
          (.a (g.a c)
            (g.idx_k_abs c i * g.tile_k + g.idx_m_abs c i * g.tile_m * g.lda + (r * g.lda + p))) true
  else []

def loadB (c i : Nat) : List Op :=
  if g.load_b then
    if g.transb then
      tileOps g.tile_n g.tile_k fun q p =>
        .transfer (.lb c (g.buff_idx i) (q * g.tile_k + p))
          (.b (g.idx_k_abs c i * g.tile_k + g.idx_n c i * g.tile_n * g.ldb + (q * g.ldb + p))) true
    else if g.partition_banks then
      bankOps g (g.tile_k * g.tile_n) fun e =>
        .transfer (.lb c (g.buff_idx i) e)
          (.b (g.idx_k_abs c i * (g.tile_k * g.tile_n) + e)) true
    else
      tileOps g.tile_k g.tile_n fun p q =>
        .transfer (.lb c (g.buff_idx i) (p * g.tile_n + q))
          (.b (g.idx_n c i * g.tile_n + g.idx_k_abs c i * g.tile_k * g.ldb + (p * g.ldb + q))) true
  else []

/-- The tile of `C` is loaded with the first tile of `k`, and cleared in a cluster that has not
the first one. -/
def loadC (c i : Nat) : List Op :=
  if g.load_c then
    if g.idx_k_abs c i = 0 then
      if g.partition_banks then
        bankOps g (g.tile_m * g.tile_n) fun e =>
          .transfer (.lc c (g.buff_idx (g.idx_mn c i)) e)
            (.c (g.copy c) (g.idx_m_abs c i * (g.tile_m * g.tile_n) + e)) (g.beta ≠ 0)
      else
        tileOps g.tile_m g.tile_n fun r q =>
          .transfer (.lc c (g.buff_idx (g.idx_mn c i)) (r * g.tile_n + q))
            (.c (g.copy c)
              (g.idx_n c i * g.tile_n + g.idx_m_abs c i * g.tile_m * g.ldc + (r * g.ldc + q)))
            (g.beta ≠ 0)
    else if g.idx_k c i = 0 then
      (if g.partition_banks then bankOps g else lineOps) (g.tile_m * g.tile_n) fun e =>
        .clear (.lc c (g.buff_idx (g.idx_mn c i)) e)
    else []
  else []

/-- What the data mover of cluster `c` transfers in iteration `i`: first out, then in. -/
def transferCode (c i : Nat) : List Op :=
  (if g.lag + 1 ≤ i then storeC g c (i - (g.lag + 1)) else []) ++
  if i < g.num_tiles c then loadA g c i ++ loadB g c i ++ loadC g c i else []

/-- The part of core `core` in the tile of iteration `i` (`sc_st_gemm`). -/
def tileCode (c i core : Nat) : List Op :=
  let beta_k := if g.idx_k_abs c i = 0 then g.beta else 1
  (dealtRows g.snrt_cluster_compute_core_num core g.tile_m).flatMap fun r =>
    (List.range g.tile_n).map fun q =>
      .multiply beta_k (g.lc c (g.buff_idx (g.idx_mn c i)) (g.element g.tile_n r q)) g.tile_k
        (fun p => g.la c (g.buff_idx i) (g.element g.tile_k r p))
        fun p =>
          g.lb c (g.buff_idx i) (if g.transb then q * g.tile_k + p else g.element g.tile_n p q)

/-- What core `core` of cluster `c` computes in iteration `i`. -/
def computeCode (c i core : Nat) : List Op :=
  if g.lag ≤ i ∧ i - g.lag < g.num_tiles c then tileCode g c (i - g.lag) core else []

/-- Whether tiles are added up over the clusters: for `FP8` there is no such case. -/
def reduces : Bool := g.parallelize_k ∧ g.prec ≠ 1 ∧ 1 < g.num_working_clusters

/-- `snrt_global_reduction_dma` leaves the sum in cluster 0. -/
def reduceCode (mn : Nat) : List Op :=
  if reduces g ∧ mn < g.cluster_m_tiles * g.n_tiles then
    lineOps (g.tile_m * g.tile_n) fun e =>
      .add (g.lc 0 (g.buff_idx mn) e) g.num_working_clusters fun c => g.lc c (g.buff_idx mn) e
  else []

/-- An iteration by its tile of `C` and its tile of `k`, which a cluster may not have, and what
follows the last one. -/
inductive Phase
  | transfer (mn k : Nat)
  | compute (mn k : Nat)
  | gather (mn : Nat)
  | reduce (mn : Nat)
  deriving DecidableEq

namespace GemmArgs

/-- The number of the iteration in the cluster's own count. -/
def iteration (c mn k : Nat) : Nat := mn * g.cluster_k_tiles c + k

def Active (c mn k : Nat) : Prop := k < g.cluster_k_tiles c ∧ g.iteration c mn k < g.num_iters c

instance (c mn k : Nat) : Decidable (g.Active c mn k) := by
  unfold Active
  infer_instance

/-- The data mover is the core after the compute cores. -/
def cores : Nat := g.snrt_cluster_compute_core_num + 1

end GemmArgs

def code (p : Phase) (agent : Nat) : List Op :=
  let c := agent / g.cores
  let core := agent % g.cores
  match p with
  | .transfer mn k =>
    if core = g.snrt_cluster_compute_core_num ∧ g.Active c mn k then
      transferCode g c (g.iteration c mn k)
    else []
  | .compute mn k =>
    if core ≠ g.snrt_cluster_compute_core_num ∧ g.Active c mn k then
      computeCode g c (g.iteration c mn k) core
    else []
  | .gather _ => []
  | .reduce mn => if agent = 0 then reduceCode g mn else []

/-- The phases of a tile of `C`. -/
def tilePhases (mn : Nat) : List Phase :=
  (List.range (g.cluster_k_tiles 0)).flatMap (fun k => [.transfer mn k, .compute mn k]) ++
    [.gather mn, .reduce mn]

/-- The two barriers of an iteration, of which double buffering leaves out the first, and the
wait of the clusters that take part in a reduction for each other, before and after. -/
def waits (p : Phase) (agent other : Nat) : Bool :=
  let c := agent / g.cores
  let c' := other / g.cores
  match p with
  | .transfer mn k => ¬g.double_buffer ∧ c = c' ∧ g.Active c mn k
  | .compute mn k => c = c' ∧ g.Active c mn k
  | .gather mn | .reduce mn =>
    reduces g ∧ mn < g.cluster_m_tiles * g.n_tiles ∧
      c < g.num_working_clusters ∧ c' < g.num_working_clusters

/-- `gemm`.  The stores reach into the two tiles of `C` after the last. -/
def gemm : Program Phase Op where
  agents := g.snrt_cluster_num * g.cores
  schedule := (List.range (g.cluster_m_tiles * g.n_tiles + 2)).flatMap (tilePhases g)
  code := code g
  waits := waits g

end Code

end SnitchCluster.Kernels.GemmTiles
