/-
# Kernels.BlasVariants -- naive, unrolled and streamed

The tile kernels of `syrk.h`, `doitgen.h` and `axpy.h` on one of `num` compute cores.  The naive
variants follow the definition; the baselines compute four columns at once and unroll the products
by four as well; the optimised variants take their operands from streams.

Each optimised variant configures a stream of rows, every element four times, and one of four
columns at a time.  The streams run dry exactly when the core is done (`executed_products`).
-/
import SnitchCluster.Kernels.Variants

namespace SnitchCluster.Kernels.Blas

open Theory Theory.Loops Theory.Supersteps

variable {E L F : Type} [DecidableEq E] [DecidableEq L] [CommSemiring F]

/-! ## Streamed products -/

section StreamedProducts

/-- The repeated multiply-adds, four registers a round. -/
def frep (n core : Nat) : List (StreamStep (Word E L × Word E L) (Word E L) F) :=
  (List.range (iterations n)).flatMap fun _ => (List.range 4).map fun r =>
    .pop fun ft => fmadd (.own core r) ft.1 ft.2 (.own core r)

/-- `ft0`: `rows` rows of `K` elements, again for each block of columns, an element four times. -/
def rowStream (rows stride blocks K base : Nat) : List Nat :=
  repeated 4 (streamed [(rows, stride), (blocks, 0), (K, 1)] base)

/-- `ft1`: the blocks of four columns, again for each row. -/
def columnStream (rows blocks K : Nat) : List Nat :=
  streamed [(rows, 0), (blocks, 4 * K), (K, 1), (4, K)] 0

variable {rows stride blocks K base core : Nat} {a b : Nat → Word E L}

theorem head_mem_rowStream : base ∈ rowStream rows stride blocks K base :=
  List.mem_flatMap.mpr ⟨base, head_mem_streamed _ base,
    List.mem_replicate.mpr ⟨Nat.succ_ne_zero _, rfl⟩⟩

section

variable (some_row : 0 < rows) (some_block : 0 < blocks) (some_term : 0 < K)
    (few_rows : rows ≤ 2 ^ 32) (few_blocks : blocks ≤ 2 ^ 32) (few_terms : K ≤ 2 ^ 32)

include some_row some_block some_term few_rows few_blocks few_terms

theorem rowStream_eq : rowStream rows stride blocks K base =
      (List.range rows).flatMap fun t => (List.range blocks).flatMap fun _ =>
        (List.range K).flatMap fun k => (List.range 4).map fun _ => base + t * stride + k := by
  have four : iterations 4 = 4 := rfl
  simp only [rowStream, repeated, streamed, iterations_eq some_row few_rows,
    iterations_eq some_block few_blocks, iterations_eq some_term few_terms, four,
    List.flatMap_assoc, List.flatMap_singleton, Nat.mul_zero, Nat.mul_one, Nat.add_zero,
    List.map_const', List.length_range]

theorem columnStream_eq : columnStream rows blocks K =
      (List.range rows).flatMap fun _ => (List.range blocks).flatMap fun p =>
        (List.range K).flatMap fun k => (List.range 4).map fun r => (p * 4 + r) * K + k := by
  have four : iterations 4 = 4 := rfl
  simp only [columnStream, streamed, iterations_eq some_row few_rows,
    iterations_eq some_block few_blocks, iterations_eq some_term few_terms, four, Nat.mul_zero,
    Nat.mul_one, Nat.zero_add]
  refine List.flatMap_congr fun t _ => List.flatMap_congr fun p _ =>
    List.flatMap_congr fun k _ => ?_
  rw [← List.map_eq_flatMap]
  refine List.map_congr_left fun r _ => ?_
  ring

theorem mem_rowStream {e : Nat} (here : e ∈ rowStream rows stride blocks K base) :
    ∃ t < rows, ∃ k < K, e = base + t * stride + k := by
  rw [rowStream_eq some_row some_block some_term few_rows few_blocks few_terms] at here
  simp only [List.mem_flatMap, List.mem_map, List.mem_range] at here
  obtain ⟨t, row, _, _, k, term, _, _, rfl⟩ := here
  exact ⟨t, row, k, term, rfl⟩

theorem mem_columnStream {e : Nat} (here : e ∈ columnStream rows blocks K) :
    ∃ p < blocks, ∃ r < 4, ∃ k < K, e = (p * 4 + r) * K + k := by
  rw [columnStream_eq some_row some_block some_term few_rows few_blocks few_terms] at here
  simp only [List.mem_flatMap, List.mem_map, List.mem_range] at here
  obtain ⟨_, _, p, block, k, term, r, inside, rfl⟩ := here
  exact ⟨p, block, r, inside, k, term, rfl⟩

end

omit [DecidableEq E] [DecidableEq L] in
/-- What the streams deliver, and that they keep step. -/
theorem streams_zip (stride base : Nat) (a b : Nat → Word E L) (some_row : 0 < rows)
    (some_block : 0 < blocks) (some_term : 0 < K) (few_rows : rows ≤ 2 ^ 32)
    (few_blocks : blocks ≤ 2 ^ 32) (few_terms : K ≤ 2 ^ 32) :
    ((rowStream rows stride blocks K base).map a).zip ((columnStream rows blocks K).map b) =
        ((List.range rows).flatMap fun t => (List.range blocks).flatMap fun p =>
          (List.range K).flatMap fun k => (List.range 4).map fun r =>
            (a (base + t * stride + k), b ((p * 4 + r) * K + k))) ∧
      (rowStream rows stride blocks K base).length = (columnStream rows blocks K).length := by
  -- from the innermost loop on
  have terms := fun t p => zip_flatMap (n := K)
    (f := fun k => (List.range 4).map fun _ => base + t * stride + k)
    (g := fun k => (List.range 4).map fun r => (p * 4 + r) * K + k) fun k _ => by simp
  have passes := fun t => zip_flatMap (n := blocks) fun p _ => (terms t p).2
  have all := zip_flatMap (n := rows) fun t _ => (passes t).2
  rw [List.zip_map, rowStream_eq some_row some_block some_term few_rows few_blocks few_terms,
    columnStream_eq some_row some_block some_term few_rows few_blocks few_terms]
  refine ⟨?_, all.2⟩
  rw [all.1]
  simp only [(passes _).1, (terms _ _).1, List.zip_map', List.map_flatMap, List.map_map]
  rfl

/-- **The streams run dry when the core is done**: every multiply-add finds its operands, and the
code is that of blocks in registers. -/
theorem executed_products (stride base core : Nat) (a b : Nat → Word E L) (some_row : 0 < rows)
    (some_block : 0 < blocks) (some_term : 0 < K) (few_rows : rows ≤ 2 ^ 32)
    (few_blocks : blocks ≤ 2 ^ 32) (few_terms : K ≤ 2 ^ 32)
    (before finish : Nat → Nat → List (Step E L F)) :
    let steps := (List.range rows).flatMap fun t => (List.range blocks).flatMap fun p =>
      (before t p).map .plain ++ frep K core ++ (finish t p).map .plain
    let words := ((rowStream rows stride blocks K base).map a).zip
      ((columnStream rows blocks K).map b)
    executed steps words = ((List.range rows).flatMap fun t => (List.range blocks).flatMap fun p =>
        before t p ++ dots 4 K (.own core) (fun k => a (base + t * stride + k))
          (fun r k => b ((p * 4 + r) * K + k)) ++ finish t p) ∧
      (rowStream rows stride blocks K base).length = pops steps ∧
      (columnStream rows blocks K).length = pops steps := by
  intro steps words
  have one : ∀ t p, executed ((before t p).map .plain ++ frep K core ++ (finish t p).map .plain)
        ((List.range K).flatMap fun k => (List.range 4).map fun r =>
          (a (base + t * stride + k), b ((p * 4 + r) * K + k))) =
      before t p ++ dots 4 K (.own core) (fun k => a (base + t * stride + k))
        (fun r k => b ((p * 4 + r) * K + k)) ++ finish t p ∧
      pops ((before t p).map .plain ++ frep K core ++ (finish t p).map .plain) =
        ((List.range K).flatMap fun k => (List.range 4).map fun r =>
          (a (base + t * stride + k), b ((p * 4 + r) * K + k))).length := by
    intro t p
    obtain ⟨terms, taken⟩ := executed_flatMap (n := K)
      (fun _ => (List.range 4).map fun r =>
        (.pop fun ft => fmadd (.own core r) ft.1 ft.2 (.own core r) :
          StreamStep (Word E L × Word E L) (Word E L) F))
      (fun k => (List.range 4).map fun r =>
        (a (base + t * stride + k), b ((p * 4 + r) * K + k))) fun k _ => rfl
    rw [frep, iterations_eq some_term few_terms]
    generalize (List.range K).flatMap (fun k => (List.range 4).map fun r =>
      (a (base + t * stride + k), b ((p * 4 + r) * K + k))) = W at *
    constructor
    · have first : pops ((before t p).map .plain ++ (List.range K).flatMap fun _ =>
          (List.range 4).map fun r => (.pop fun ft => fmadd (.own core r) ft.1 ft.2 (.own core r) :
            StreamStep (Word E L × Word E L) (Word E L) F)) = W.length := by
        rw [pops_append, pops_plain, taken, Nat.zero_add]
      rw [← List.append_nil W, executed_append first, executed_plain, ← List.nil_append W,
        executed_append (pops_plain _), executed_plain, terms]
      rfl
    · rw [pops_append, pops_append, pops_plain, pops_plain, taken, Nat.zero_add, Nat.add_zero]
  have passes := fun t => executed_flatMap (n := blocks) _ _ fun p _ => (one t p).2
  have all := executed_flatMap (n := rows) _ _ fun t _ => (passes t).2
  obtain ⟨delivered, level⟩ := streams_zip stride base a b
    some_row some_block some_term few_rows few_blocks few_terms
  have taken : pops steps = words.length := all.2.trans (congrArg _ delivered.symm)
  rw [List.length_zip, List.length_map, List.length_map, level, Nat.min_self] at taken
  refine ⟨?_, level.trans taken.symm, taken.symm⟩
  simp only [words, delivered]
  refine all.1.trans ?_
  exact List.flatMap_congr fun t _ => (passes t).1.trans (List.flatMap_congr fun p _ => (one t p).1)

end StreamedProducts

/-! ## syrk -/

section Syrk

variable [DecidableEq F]

/-- `c = multiply_opt(c, beta)` -/
def multiply (c : Word E L) (beta : F) : Step E L F :=
  .assign c c c c fun v _ _ => multiply_opt v beta

/-- `c += alpha * acc` -/
def accumulate (c acc : Word E L) (alpha : F) : Step E L F :=
  .assign c c acc acc fun v s _ => v + alpha * s

/-- Without unrolling. -/
def syrk_naive (num core m n : Nat) (alpha : F) (a at' : Nat → Word E L) (beta : F)
    (c : Nat → Word E L) : List (Step E L F) :=
  (dealtRows num core m).flatMap fun i => (List.range m).flatMap fun j =>
    put (.own core 0) 0 ::
      (List.range n).map (fun k =>
        fmadd (.own core 0) (a (i * n + k)) (at' (j * n + k)) (.own core 0)) ++
      [multiply (c (i * m + j)) beta, accumulate (c (i * m + j)) (.own core 0) alpha]

/-- `unroll1` and `unroll0` are four. -/
def syrk_baseline (num core m n : Nat) (alpha : F) (a at' : Nat → Word E L) (beta : F)
    (c : Nat → Word E L) : List (Step E L F) :=
  (dealtRows num core m).flatMap fun i => (dealtRows 4 0 m).flatMap fun j =>
    (List.range 4).map (fun r => put (.own core r) 0) ++
      ((dealtRows 4 0 n).flatMap fun k => (List.range 4).flatMap fun l =>
        (List.range 4).map fun r =>
          fmadd (.own core r) (a (i * n + (k + l))) (at' ((j + r) * n + (k + l))) (.own core r)) ++
      ((List.range 4).map (fun r => multiply (c (i * m + (j + r))) beta) ++
        (List.range 4).map fun r => accumulate (c (i * m + (j + r))) (.own core r) alpha)

/-- The streams of `syrk_opt` on a core: `ft0` reads its rows of `a`, `ft1` all of `at`. -/
def syrk_opt_ft0 (num core m n : Nat) : List Nat :=
  rowStream (m / num) (num * n) (m / 4) n (core * n)

def syrk_opt_ft1 (num m n : Nat) : List Nat := columnStream (m / num) (m / 4) n

/-- `acc *= alpha` and `c = c * beta + acc` -/
def syrk_opt_finish (core : Nat) (alpha beta : F) (c : Nat → Word E L) : List (Step E L F) :=
  (List.range 4).map (fun r => .assign (.own core r) (.own core r) (.own core r) (.own core r)
      fun s _ _ => s * alpha) ++
    (List.range 4).map fun r => .assign (c r) (c r) (.own core r) (.own core r)
      fun v s _ => v * beta + s

def syrk_opt (num core m n : Nat) (alpha : F) (a at' : Nat → Word E L) (beta : F)
    (c : Nat → Word E L) : Variant (Word E L × Word E L) (Word E L) F where
  steps :=
    (dealtRows num core m).flatMap fun i => (dealtRows 4 0 m).flatMap fun j =>
      ((List.range 4).map fun r => put (.own core r) 0).map .plain ++ frep n core ++
        (syrk_opt_finish core alpha beta fun r => c (i * m + (j + r))).map .plain
  words := ((syrk_opt_ft0 num core m n).map a).zip ((syrk_opt_ft1 num m n).map at')
  streams := [(syrk_opt_ft0 num core m n).map a, (syrk_opt_ft1 num m n).map at']

variable {num core m n : Nat} {alpha beta : F} {a at' c : Nat → Word E L}

omit [DecidableEq E] [DecidableEq L] in
/-- What a core deals out to itself when the rows are a multiple of the cores. -/
theorem dealtRows_whole {num core m : Nat} (whole : num ∣ m) :
    dealtRows num core m = (List.range (m / num)).map fun q => q * num + core := by
  rw [dealtRows, Nat.mod_eq_zero_of_dvd whole, if_neg (Nat.not_lt_zero core), Nat.add_zero]

/-- A loop as a loop over rows. -/
theorem flatMap_grid {α : Type} (h w : Nat) (f : Nat → List α) :
    (List.range (h * w)).flatMap f =
      (List.range h).flatMap fun k => (List.range w).flatMap fun l => f (k * w + l) := by
  have rows := range_grid (h := h) (w := w) fun x : Nat => x
  rw [List.map_id'] at rows
  rw [rows, List.flatMap_assoc]
  exact List.flatMap_congr fun k _ => List.flatMap_map ..

theorem dealtRows_one (m : Nat) : dealtRows 1 0 m = List.range m := by
  simp [dealtRows, Nat.mod_one]

omit [DecidableEq F] in
theorem dots_one (n : Nat) (acc u : Nat → Word E L) (v : Nat → Nat → Word E L) :
    (dots 1 n acc u v : List (Step E L F)) =
      (List.range n).map fun k => fmadd (acc 0) (u k) (v 0 k) (acc 0) := by
  rw [dots, List.map_eq_flatMap]
  rfl

/-- What `syrk_naive` and `syrk_baseline` do with the products. -/
def syrk_finish (w core : Nat) (alpha beta : F) (c : Nat → Word E L) : List (Step E L F) :=
  (List.range w).map (fun r => multiply (c r) beta) ++
    (List.range w).map fun r => accumulate (c r) (.own core r) alpha

theorem syrk_naive_eq : syrk_naive num core m n alpha a at' beta c =
    products 1 m (dealtRows num core m) fun i j => block 1 n core (fun k => a (i * n + k))
      (fun r k => at' ((j + r) * n + k))
      (syrk_finish 1 core alpha beta fun r => c (i * m + (j + r))) := by
  simp only [syrk_naive, products, block, dots_one, dealtRows_one]
  rfl

omit [DecidableEq F] in
/-- Products unrolled by four. -/
theorem unrolled_terms (whole : 4 ∣ n) (core : Nat) (u : Nat → Word E L)
    (v : Nat → Nat → Word E L) :
    ((dealtRows 4 0 n).flatMap fun k => (List.range 4).flatMap fun l => (List.range 4).map fun r =>
        (fmadd (.own core r) (u (k + l)) (v r (k + l)) (.own core r) : Step E L F)) =
      dots 4 n (.own core) u v := by
  obtain ⟨q, rfl⟩ := whole
  rw [dealtRows_whole (Nat.dvd_mul_right 4 q), Nat.mul_div_cancel_left q (by decide), dots,
    List.flatMap_map, Nat.mul_comm 4 q, flatMap_grid]
  rfl

theorem syrk_baseline_eq (whole : 4 ∣ n) : syrk_baseline num core m n alpha a at' beta c =
    products 4 m (dealtRows num core m) fun i j => block 4 n core (fun k => a (i * n + k))
      (fun r k => at' ((j + r) * n + k))
      (syrk_finish 4 core alpha beta fun r => c (i * m + (j + r))) := by
  have terms := fun i j => unrolled_terms (F := F) whole core (fun k => a (i * n + k))
    fun r k => at' ((j + r) * n + k)
  simp only [syrk_baseline, products, block, terms]
  rfl

omit [DecidableEq F] in
theorem syrk_opt_eq (some_m : 0 < m) (some_n : 0 < n) (cores : num ∣ m) (whole : 4 ∣ m)
    (few_m : m ≤ 2 ^ 32) (few_n : n ≤ 2 ^ 32) :
    (syrk_opt num core m n alpha a at' beta c).code =
        products 4 m (dealtRows num core m) (fun i j => block 4 n core (fun k => a (i * n + k))
          (fun r k => at' ((j + r) * n + k))
          (syrk_opt_finish core alpha beta fun r => c (i * m + (j + r)))) ∧
      ∀ stream ∈ (syrk_opt num core m n alpha a at' beta c).streams,
        stream.length = pops (syrk_opt num core m n alpha a at' beta c).steps := by
  have positive : 0 < num := Nat.pos_of_dvd_of_pos cores some_m
  have rows := Nat.div_pos (Nat.le_of_dvd some_m cores) positive
  have blocks := Nat.div_pos (Nat.le_of_dvd some_m whole) (by decide : 0 < 4)
  obtain ⟨code, level, level'⟩ := executed_products (num * n) (core * n) core a at'
    rows blocks some_n
    ((Nat.div_le_self m num).trans few_m) ((Nat.div_le_self m 4).trans few_m) few_n
    (fun _ _ => (List.range 4).map fun r => put (.own core r) 0)
    fun t p => syrk_opt_finish core alpha beta fun r =>
      c ((t * num + core) * m + (p * 4 + 0 + r))
  have row : ∀ t k, core * n + t * (num * n) + k = (t * num + core) * n + k := by
    intro t k
    ring
  constructor
  · simp only [row] at code
    rw [products, dealtRows_whole cores, dealtRows_whole whole]
    simp only [Variant.code, syrk_opt, syrk_opt_ft0, syrk_opt_ft1, dealtRows_whole cores,
      dealtRows_whole whole, List.flatMap_map, block]
    exact code
  · simp only [syrk_opt, dealtRows_whole cores, dealtRows_whole whole, List.flatMap_map,
      List.mem_cons, List.not_mem_nil, or_false, forall_eq_or_imp, forall_eq, List.length_map]
    exact ⟨level, level'⟩

omit [DecidableEq E] [DecidableEq L] in
/-- The streams of a core deliver operands. -/
theorem syrk_opt_streams (worker : core < num) (some_m : 0 < m) (some_n : 0 < n) (cores : num ∣ m)
    (whole : 4 ∣ m) (few_m : m ≤ 2 ^ 32) (few_n : n ≤ 2 ^ 32) :
    (∀ e ∈ syrk_opt_ft0 num core m n, e < m * n) ∧ ∀ e ∈ syrk_opt_ft1 num m n, e < m * n := by
  have rows := Nat.div_pos (Nat.le_of_dvd some_m cores) (Nat.zero_lt_of_lt worker)
  have blocks := Nat.div_pos (Nat.le_of_dvd some_m whole) (by decide : 0 < 4)
  have few_rows := (Nat.div_le_self m num).trans few_m
  have few_blocks := (Nat.div_le_self m 4).trans few_m
  constructor
  · intro e here
    obtain ⟨t, row, k, term, rfl⟩ :=
      mem_rowStream rows blocks some_n few_rows few_blocks few_n here
    have element : core * n + t * (num * n) + k = (t * num + core) * n + k := by ring
    rw [element]
    refine grid_lt ?_ term
    rw [← Nat.div_mul_cancel cores]
    exact grid_lt row worker
  · intro e here
    obtain ⟨p, block, r, inside, k, term, rfl⟩ :=
      mem_columnStream rows blocks some_n few_rows few_blocks few_n here
    refine grid_lt ?_ term
    rw [← Nat.div_mul_cancel whole]
    exact grid_lt block inside

variable {w : Nat}

theorem syrk_finishes (inj : ∀ r < w, ∀ r' < w, c r = c r' → r = r') (shared : ∀ r, Shared (c r)) :
    Finishes w core c (fun v s => v * beta + alpha * s) (syrk_finish w core alpha beta c) where
  within := by
    refine Semantics.within_append.mpr ⟨Semantics.within_map.mpr fun r inside => ⟨?_, ?_⟩,
      Semantics.within_map.mpr fun r inside => ⟨?_, ?_⟩⟩
    · rintro x (rfl | rfl | rfl) <;> exact .inr (.inr ⟨r, inside, rfl⟩)
    · exact fun x written => .inr ⟨r, inside, written⟩
    · rintro x (rfl | rfl | rfl)
      · exact .inr (.inr ⟨r, inside, rfl⟩)
      · exact .inr (.inl ⟨r, rfl⟩)
      · exact .inr (.inl ⟨r, rfl⟩)
    · exact fun x written => .inr ⟨r, inside, written⟩
  value m r inside := by
    have scaled := after_each (S := fun r => multiply (c r) beta) (m := m)
      (fun _ _ _ written => written) inj (fun r small r' small' other read => other (inj r small r'
        small' (by rcases read with same | same | same <;> exact same.symm))) inside
    have kept : after Statement.run ((List.range w).map fun r => multiply (c r) beta) m
        (.own core r) = m (.own core r) :=
      after_each_frame (fun _ _ _ written => written) fun r' _ same => shared r' core r same.symm
    rw [syrk_finish, after_append, after_each (fun _ _ _ written => written) inj ?_ inside]
    · refine (Function.update_self _ _ _).trans ?_
      rw [scaled, kept]
      exact congrArg (· + _) ((Function.update_self _ _ _).trans (multiply_opt_eq _ _))
    · rintro r small r' small' other (same | same | same)
      · exact other (inj r small r' small' same.symm)
      · exact shared r' core r same
      · exact shared r' core r same

omit [DecidableEq F] in
theorem syrk_opt_finishes (inj : ∀ r < 4, ∀ r' < 4, c r = c r' → r = r')
    (shared : ∀ r, Shared (c r)) :
    Finishes 4 core c (fun v s => v * beta + alpha * s) (syrk_opt_finish core alpha beta c) where
  within := by
    refine Semantics.within_append.mpr ⟨Semantics.within_map.mpr fun r inside => ⟨?_, ?_⟩,
      Semantics.within_map.mpr fun r inside => ⟨?_, ?_⟩⟩
    · rintro x (rfl | rfl | rfl) <;> exact .inr (.inl ⟨r, rfl⟩)
    · exact fun x written => .inl ⟨r, written⟩
    · rintro x (rfl | rfl | rfl)
      · exact .inr (.inr ⟨r, inside, rfl⟩)
      · exact .inr (.inl ⟨r, rfl⟩)
      · exact .inr (.inl ⟨r, rfl⟩)
    · exact fun x written => .inr ⟨r, inside, written⟩
  value m r inside := by
    have registers : ∀ r < 4, ∀ r' < 4, (.own core r : Word E L) = .own core r' → r = r' :=
      fun r _ r' _ same => by injection same
    have scaled := after_each (m := m) (p := fun r => (.own core r : Word E L))
      (S := fun r => .assign (.own core r) (.own core r) (.own core r) (.own core r)
        fun s _ _ => s * alpha) (fun _ _ _ written => written) registers
      (fun r small r' small' other read => other (registers r small r' small'
        (by rcases read with same | same | same <;> exact same.symm))) inside
    have kept := after_each_frame (m := m) (w := 4) (p := fun r => (.own core r : Word E L))
      (S := fun r => .assign (.own core r) (.own core r) (.own core r) (.own core r)
        fun s _ _ => s * alpha) (fun _ _ _ written => written) fun r' _ => shared r core r'
    rw [syrk_opt_finish, after_append, after_each (fun _ _ _ written => written) inj ?_ inside]
    · refine (Function.update_self _ _ _).trans ?_
      rw [scaled, kept]
      exact congrArg (_ + ·) ((Function.update_self _ _ _).trans (mul_comm _ _))
    · rintro r small r' small' other (same | same | same)
      · exact other (inj r small r' small' same.symm)
      · exact shared r' core r same
      · exact shared r' core r same

end Syrk

/-! ## doitgen -/

section Doitgen

def doitgen_naive (num core r q s : Nat) (A x Aout : Nat → Word E L) : List (Step E L F) :=
  (dealtRows num core r).flatMap fun i => (List.range q).flatMap fun j =>
    (List.range s).flatMap fun k =>
      put (Aout (i * q * s + j * s + k)) 0 :: (List.range s).map fun l =>
        fmadd (Aout (i * q * s + j * s + k)) (A (i * q * s + j * s + l)) (x (k * s + l))
          (Aout (i * q * s + j * s + k))

/-- The registers become elements. -/
def doitgen_finish (core : Nat) (Aout : Nat → Word E L) : List (Step E L F) :=
  (List.range 4).map fun r => .assign (Aout r) (.own core r) (.own core r) (.own core r)
    fun v _ _ => v

/-- `unroll1` and `unroll0` are four. -/
def doitgen_baseline (num core r q s : Nat) (A x Aout : Nat → Word E L) : List (Step E L F) :=
  (dealtRows num core r).flatMap fun i => (List.range q).flatMap fun j =>
    (dealtRows 4 0 s).flatMap fun k =>
      (List.range 4).map (fun r => put (.own core r) 0) ++
        ((dealtRows 4 0 s).flatMap fun l => (List.range 4).flatMap fun l' =>
          (List.range 4).map fun r => fmadd (.own core r) (A (i * q * s + j * s + (l + l')))
            (x ((k + r) * s + (l + l'))) (.own core r)) ++
        doitgen_finish core fun r => Aout (i * q * s + j * s + (k + r))

/-- The streams of `doitgen_opt` on a core: its rows of `A`, and all of `x`. -/
def doitgen_opt_ft0 (num core r q s : Nat) : List Nat :=
  let bound := r / num
  rowStream (q * bound) s (s / 4) s (bound * core * q * s)

def doitgen_opt_ft1 (num r q s : Nat) : List Nat := columnStream (q * (r / num)) (s / 4) s

/-- Each core has its rows in one block. -/
def doitgen_opt (num core r q s : Nat) (A x Aout : Nat → Word E L) :
    Variant (Word E L × Word E L) (Word E L) F where
  steps :=
    let bound := r / num
    let offset := bound * core
    (List.range bound).flatMap fun t => (List.range q).flatMap fun j =>
      (dealtRows 4 0 s).flatMap fun k =>
        ((List.range 4).map fun r => put (.own core r) 0).map .plain ++ frep s core ++
          (doitgen_finish core fun r => Aout ((offset + t) * q * s + j * s + (k + r))).map .plain
  words := ((doitgen_opt_ft0 num core r q s).map A).zip ((doitgen_opt_ft1 num r q s).map x)
  streams := [(doitgen_opt_ft0 num core r q s).map A, (doitgen_opt_ft1 num r q s).map x]

variable {num core r q s : Nat} {A x Aout : Nat → Word E L}

/-- The planes of `A` as rows. -/
def planeRows (q : Nat) (planes : List Nat) : List Nat :=
  planes.flatMap fun i => (List.range q).map fun j => i * q + j

omit [DecidableEq E] [DecidableEq L] [CommSemiring F] in
theorem planeRows_dealt {rows : Nat → List Nat} (dealt : Dealt num r rows) :
    Dealt num (r * q) fun core => planeRows q (rows core) := by
  have member : ∀ {core i : Nat}, i ∈ planeRows q (rows core) →
      ∃ p ∈ rows core, ∃ j < q, p * q + j = i := by
    intro core i here
    obtain ⟨p, mine, inner⟩ := List.mem_flatMap.mp here
    obtain ⟨j, inside, rfl⟩ := List.mem_map.mp inner
    exact ⟨p, mine, j, List.mem_range.mp inside, rfl⟩
  constructor
  · intro core
    have pairs : planeRows q (rows core) =
        (rows core ×ˢ List.range q).map fun p => p.1 * q + p.2 := by
      simp only [planeRows, SProd.sprod, List.product, List.map_flatMap, List.map_map]
      rfl
    rw [pairs]
    refine ((dealt.nodup core).product List.nodup_range).map_on fun p mine p' mine' same => ?_
    obtain ⟨_, column⟩ := List.mem_product.mp mine
    obtain ⟨_, column'⟩ := List.mem_product.mp mine'
    obtain ⟨planes, columns⟩ := grid_inj (List.mem_range.mp column) (List.mem_range.mp column') same
    exact Prod.ext planes columns
  · intro core worker core' worker' i here there
    obtain ⟨p, mine, j, inside, rfl⟩ := member here
    obtain ⟨p', theirs, j', inside', same⟩ := member there
    obtain ⟨rfl, rfl⟩ := grid_inj inside' inside same
    exact dealt.once core worker core' worker' p' mine theirs
  · intro core worker i here
    obtain ⟨p, mine, j, inside, rfl⟩ := member here
    exact grid_lt (dealt.inside core worker p mine) inside
  · intro i small
    have some : 0 < q := by
      by_contra none
      rw [Nat.le_zero.mp (Nat.le_of_not_lt none), Nat.mul_zero] at small
      exact Nat.not_lt_zero i small
    obtain ⟨core, worker, mine⟩ := dealt.all (i / q) (Nat.div_lt_of_lt_mul (by rwa [Nat.mul_comm]))
    refine ⟨core, worker, List.mem_flatMap.mpr ⟨i / q, mine, ?_⟩⟩
    exact List.mem_map.mpr ⟨i % q, List.mem_range.mpr (Nat.mod_lt i some), Nat.div_add_mod' i q⟩

/-- Rows in one block a core. -/
theorem blockRows_dealt (some : 0 < num) (whole : num ∣ r) :
    Dealt num r fun core => (List.range (r / num)).map fun t => r / num * core + t := by
  obtain ⟨bound, rfl⟩ := whole
  rw [Nat.mul_div_cancel_left bound some]
  constructor
  · exact fun _ => List.nodup_range.map fun _ _ same => Nat.add_left_cancel same
  · intro core worker core' worker' i mine theirs
    obtain ⟨t, inside, rfl⟩ := List.mem_map.mp mine
    obtain ⟨t', inside', same⟩ := List.mem_map.mp theirs
    rw [Nat.mul_comm, Nat.mul_comm bound] at same
    exact (grid_inj (List.mem_range.mp inside') (List.mem_range.mp inside) same).1.symm
  · intro core worker i mine
    obtain ⟨t, inside, rfl⟩ := List.mem_map.mp mine
    rw [Nat.mul_comm bound]
    exact grid_lt worker (List.mem_range.mp inside)
  · intro i small
    have positive : 0 < bound := by
      by_contra none
      rw [Nat.le_zero.mp (Nat.le_of_not_lt none), Nat.mul_zero] at small
      exact Nat.not_lt_zero i small
    refine ⟨i / bound, Nat.div_lt_of_lt_mul (by rwa [Nat.mul_comm]), List.mem_map.mpr
      ⟨i % bound, List.mem_range.mpr (Nat.mod_lt i positive), ?_⟩⟩
    rw [Nat.div_add_mod]

theorem flatMap_planeRows {α : Type} (planes : List Nat) (f : Nat → List α) :
    (planeRows q planes).flatMap f =
      planes.flatMap fun i => (List.range q).flatMap fun j => f (i * q + j) := by
  rw [planeRows, List.flatMap_assoc]
  exact List.flatMap_congr fun i _ => List.flatMap_map ..

/-- An element by its row. -/
theorem plane_element (i j k : Nat) : i * q * s + j * s + k = (i * q + j) * s + k := by
  rw [Nat.add_mul]

theorem doitgen_naive_eq : (doitgen_naive num core r q s A x Aout : List (Step E L F)) =
    products 1 s (planeRows q (dealtRows num core r)) fun i k =>
      (List.range 1).map (fun r' => put (Aout (i * s + (k + r'))) 0) ++
        dots 1 s (fun r' => Aout (i * s + (k + r'))) (fun l => A (i * s + l))
          fun r' l => x ((k + r') * s + l) := by
  simp only [doitgen_naive, products, dots_one, dealtRows_one, flatMap_planeRows, plane_element]
  rfl

theorem doitgen_baseline_eq (whole : 4 ∣ s) :
    (doitgen_baseline num core r q s A x Aout : List (Step E L F)) =
      products 4 s (planeRows q (dealtRows num core r)) fun i k => block 4 s core
        (fun l => A (i * s + l)) (fun r' l => x ((k + r') * s + l))
        (doitgen_finish core fun r' => Aout (i * s + (k + r'))) := by
  have terms := fun i j => unrolled_terms (F := F) whole core (fun l => A (i * s + l))
    fun r' l => x ((j + r') * s + l)
  simp only [doitgen_baseline, products, block, flatMap_planeRows, plane_element, terms]

theorem doitgen_opt_eq (some_r : 0 < r) (some_q : 0 < q) (some_s : 0 < s) (cores : num ∣ r)
    (whole : 4 ∣ s) (few_rows : q * r ≤ 2 ^ 32) (few_s : s ≤ 2 ^ 32) :
    (doitgen_opt num core r q s A x Aout : Variant _ _ F).code =
        products 4 s (planeRows q ((List.range (r / num)).map fun t => r / num * core + t))
          (fun i k => block 4 s core (fun l => A (i * s + l)) (fun r' l => x ((k + r') * s + l))
            (doitgen_finish core fun r' => Aout (i * s + (k + r')))) ∧
      ∀ stream ∈ (doitgen_opt num core r q s A x Aout : Variant _ _ F).streams,
        stream.length = pops (doitgen_opt num core r q s A x Aout : Variant _ _ F).steps := by
  have positive : 0 < num := Nat.pos_of_dvd_of_pos cores some_r
  have bound : 0 < r / num := Nat.div_pos (Nat.le_of_dvd some_r cores) positive
  have rows : 0 < q * (r / num) := Nat.mul_pos some_q bound
  have blocks : 0 < s / 4 := Nat.div_pos (Nat.le_of_dvd some_s whole) (by decide)
  obtain ⟨code, level, level'⟩ := executed_products (F := F) s
    (r / num * core * q * s) core A x rows blocks some_s
    ((Nat.mul_le_mul_left q (Nat.div_le_self r num)).trans few_rows)
    ((Nat.div_le_self s 4).trans few_s) few_s
    (fun _ _ => (List.range 4).map fun r' => put (.own core r') 0)
    fun t p => doitgen_finish core fun r' =>
      Aout ((r / num * core * q + t) * s + (p * 4 + 0 + r'))
  have place : ∀ t j, r / num * core * q + (t * q + j) = (r / num * core + t) * q + j := by
    intro t j
    ring
  have row : ∀ t l, r / num * core * q * s + t * s + l = (r / num * core * q + t) * s + l := by
    intro t l
    ring
  simp only [row, Nat.mul_comm q (r / num), flatMap_grid, place] at code level level'
  constructor
  · rw [products, flatMap_planeRows, List.flatMap_map, dealtRows_whole whole]
    simp only [Variant.code, doitgen_opt, doitgen_opt_ft0, doitgen_opt_ft1,
      Nat.mul_comm q (r / num), dealtRows_whole whole, List.flatMap_map, plane_element, block]
    exact code
  · simp only [doitgen_opt, doitgen_opt_ft0, doitgen_opt_ft1, Nat.mul_comm q (r / num),
      dealtRows_whole whole, List.flatMap_map, plane_element, List.mem_cons, List.not_mem_nil,
      or_false, forall_eq_or_imp, forall_eq, List.length_map]
    exact ⟨level, level'⟩

omit [DecidableEq E] [DecidableEq L] [CommSemiring F] in
theorem doitgen_opt_streams (worker : core < num) (some_r : 0 < r) (some_q : 0 < q)
    (some_s : 0 < s) (cores : num ∣ r) (whole : 4 ∣ s) (few_rows : q * r ≤ 2 ^ 32)
    (few_s : s ≤ 2 ^ 32) :
    (∀ e ∈ doitgen_opt_ft0 num core r q s, e < r * q * s) ∧
      ∀ e ∈ doitgen_opt_ft1 num r q s, e < s * s := by
  have bound := Nat.div_pos (Nat.le_of_dvd some_r cores) (Nat.zero_lt_of_lt worker)
  have rows : 0 < q * (r / num) := Nat.mul_pos some_q bound
  have blocks := Nat.div_pos (Nat.le_of_dvd some_s whole) (by decide : 0 < 4)
  have few : q * (r / num) ≤ 2 ^ 32 :=
    (Nat.mul_le_mul_left q (Nat.div_le_self r num)).trans few_rows
  have few_blocks := (Nat.div_le_self s 4).trans few_s
  constructor
  · intro e here
    obtain ⟨t, row, l, term, rfl⟩ := mem_rowStream rows blocks some_s few few_blocks few_s here
    have element : r / num * core * q * s + t * s + l =
        (core * (q * (r / num)) + t) * s + l := by ring
    have all : r * q = num * (q * (r / num)) := by
      conv_lhs => rw [← Nat.div_mul_cancel cores]
      ring
    rw [element, all]
    exact grid_lt (grid_lt worker row) term
  · intro e here
    obtain ⟨p, block, r', inside, l, term, rfl⟩ :=
      mem_columnStream rows blocks some_s few few_blocks few_s here
    refine grid_lt ?_ term
    rw [← Nat.div_mul_cancel whole]
    exact grid_lt block inside

omit [CommSemiring F] in
theorem doitgen_finishes (inj : ∀ r < 4, ∀ r' < 4, Aout r = Aout r' → r = r')
    (shared : ∀ r, Shared (Aout r)) :
    Finishes 4 core Aout (fun _ s => s) (doitgen_finish core Aout : List (Step E L F)) where
  within := by
    refine Semantics.within_map.mpr fun r inside => ⟨?_, fun x written => .inr ⟨r, inside, written⟩⟩
    rintro x (rfl | rfl | rfl) <;> exact .inr (.inl ⟨r, rfl⟩)
  value m r inside := by
    refine (after_each (fun _ _ _ written => written) inj ?_ inside).trans
      (Function.update_self _ _ _)
    rintro r - r' - - (same | same | same) <;> exact shared r' core r same

end Doitgen

/-! ## axpy -/

section Axpy

/-- `z = a * x + y` -/
def axpy_element (a : F) (x y z : Word E L) : Step E L F := .assign z x y y fun u v _ => a * u + v

def axpy_naive (num core n : Nat) (a : F) (x y z : Nat → Word E L) : List (Step E L F) :=
  (dealtRows num core n).map fun i => axpy_element a (x i) (y i) (z i)

/-- An element is one `fmadd.d`. -/
def axpy_fma (num core n : Nat) (a : F) (x y z : Nat → Word E L) : List (Step E L F) :=
  (dealtRows num core n).map fun i => axpy_element a (x i) (y i) (z i)

/-- All three streams of a core. -/
def axpy_opt_ft (num core n : Nat) : List Nat :=
  let frac := n / num
  streamed [(frac, num)] core

def axpy_opt (num core n : Nat) (a : F) (x y z : Nat → Word E L) :
    Variant (Word E L × Word E L × Word E L) (Word E L) F where
  steps :=
    let frac := n / num
    (List.range (iterations frac)).map fun _ => .pop fun ft => axpy_element a ft.1 ft.2.1 ft.2.2
  words := ((axpy_opt_ft num core n).map x).zip
    (((axpy_opt_ft num core n).map y).zip ((axpy_opt_ft num core n).map z))
  streams := [(axpy_opt_ft num core n).map x, (axpy_opt_ft num core n).map y,
    (axpy_opt_ft num core n).map z]

variable {num core n : Nat} {a : F} {x y z : Nat → Word E L}

theorem axpy_opt_ft_eq (some_core : 0 < num) (some : 0 < n) (cores : num ∣ n) (few : n ≤ 2 ^ 32) :
    axpy_opt_ft num core n = dealtRows num core n := by
  have rows := Nat.div_pos (Nat.le_of_dvd some cores) some_core
  simp only [axpy_opt_ft, streamed, iterations_eq rows ((Nat.div_le_self n num).trans few),
    dealtRows_whole cores, ← List.map_eq_flatMap]
  exact List.map_congr_left fun t _ => Nat.add_comm ..

/-- **The streamed variant executes the code of the others.** -/
theorem axpy_opt_eq (some_core : 0 < num) (some : 0 < n) (cores : num ∣ n) (few : n ≤ 2 ^ 32) :
    (axpy_opt num core n a x y z).code = axpy_naive num core n a x y z ∧
      ∀ stream ∈ (axpy_opt num core n a x y z).streams,
        stream.length = pops (axpy_opt num core n a x y z).steps := by
  have rows := Nat.div_pos (Nat.le_of_dvd some cores) some_core
  have frac := iterations_eq rows ((Nat.div_le_self n num).trans few)
  have steps : (axpy_opt num core n a x y z).steps =
      ((List.range (n / num)).map fun _ (ft : Word E L × Word E L × Word E L) =>
        axpy_element a ft.1 ft.2.1 ft.2.2).map .pop := by
    simp only [axpy_opt, frac, List.map_map]
    rfl
  constructor
  · have words : (axpy_opt num core n a x y z).words = (List.range (n / num)).map fun t =>
        (x (t * num + core), y (t * num + core), z (t * num + core)) := by
      simp only [axpy_opt, axpy_opt_ft_eq some_core some cores few, dealtRows_whole cores,
        List.map_map, List.zip_map']
      rfl
    rw [Variant.code, steps, words, executed_pops _ _ (by simp), List.zipWith_map,
      List.zipWith_self, axpy_naive, dealtRows_whole cores, List.map_map]
    rfl
  · rw [steps, pops_pops]
    simp [axpy_opt, axpy_opt_ft_eq some_core some cores few, dealtRows_whole cores]

variable {bX bY bZ : Nat} {X Y Z : L}

theorem axpy_parted (some_core : 0 < num) (apart_x : Z ≠ X) (apart_y : Z ≠ Y) :
    Parted num (fun core => axpy_naive num core n a (.loc X bX) (.loc Y bY) (.loc Z bZ))
      (fun w : Word E L => ∃ e < n, w = .loc X bX e ∨ w = .loc Y bY e)
      fun core w => ∃ i ∈ dealtRows num core n, w = .loc Z bZ i where
  within core worker := by
    intro s member
    obtain ⟨i, mine, rfl⟩ := List.mem_map.mp member
    have inside := ((mem_dealtRows worker).mp mine).1
    refine ⟨?_, fun w written => .inl ⟨i, mine, written⟩⟩
    rintro w (rfl | rfl | rfl)
    · exact .inl ⟨i, inside, .inl rfl⟩
    · exact .inl ⟨i, inside, .inr rfl⟩
    · exact .inl ⟨i, inside, .inr rfl⟩
  operand := by
    rintro w ⟨e, _, rfl | rfl⟩ core r same <;> cases same
  result := by
    rintro core _ w ⟨i, _, rfl⟩
    refine ⟨fun core r same => (by cases same), ?_⟩
    rintro ⟨e, _, same | same⟩ <;> injection same
    · exact apart_x ‹_›
    · exact apart_y ‹_›
  apart := by
    rintro core worker core' worker' other w ⟨i, mine, rfl⟩ ⟨i', theirs, same⟩
    injection same with _ _ same
    exact other ((dealtRows_dealt some_core).once core worker core' worker' i mine (same ▸ theirs))

/-- What `axpy` leaves. -/
def axpy (n bX bY bZ : Nat) (X Y Z : L) (a : F) (m : Word E L → F) : Word E L → F
  | .loc w b e =>
    if w = Z ∧ b = bZ ∧ e < n then a * m (.loc X bX e) + m (.loc Y bY e) else m (.loc w b e)
  | w => m w

theorem axpy_leaves (some_core : 0 < num) (apart_x : Z ≠ X) (apart_y : Z ≠ Y) :
    Leaves num (fun core => axpy_naive num core n a (.loc X bX) (.loc Y bY) (.loc Z bZ))
      (axpy n bX bY bZ X Y Z a : (Word E L → F) → _) := by
  have parted : Parted num (fun core =>
      (axpy_naive num core n a (.loc X bX) (.loc Y bY) (.loc Z bZ) : List (Step E L F))) _ _ :=
    axpy_parted some_core apart_x apart_y
  refine parted.leaves some_core fun m w shared => ?_
  have dealt := dealtRows_dealt (M := n) some_core
  have flat : ((List.range num).flatMap fun core =>
      axpy_naive num core n a (.loc X bX) (.loc Y bY) (.loc Z bZ)) =
      ((List.range num).flatMap fun core => dealtRows num core n).flatMap fun i =>
        [(axpy_element a (.loc X bX i) (.loc Y bY i) (.loc Z bZ i) : Step E L F)] := by
    simp only [axpy_naive, List.flatMap_assoc, List.map_eq_flatMap]
  have nodup : ((List.range num).flatMap fun core => dealtRows num core n).Nodup := by
    refine List.nodup_flatMap.mpr ⟨fun core _ => dealt.nodup core, ?_⟩
    refine List.nodup_range.pairwise_of_forall_ne fun core worker core' worker' other => ?_
    intro i mine theirs
    exact other (dealt.once core (List.mem_range.mp worker) core' (List.mem_range.mp worker') i
      mine theirs)
  have inside : ∀ i, i ∈ ((List.range num).flatMap fun core => dealtRows num core n) ↔ i < n := by
    intro i
    simp only [List.mem_flatMap, List.mem_range]
    exact ⟨fun ⟨core, worker, mine⟩ => dealt.inside core worker i mine, dealt.all i⟩
  have frame : (∀ e < n, w ≠ .loc Z bZ e) → after Statement.run
      ((List.range num).flatMap fun core =>
        axpy_naive num core n a (.loc X bX) (.loc Y bY) (.loc Z bZ)) m w = m w := by
    refine fun outside => after_frame (S := Statement.semantics) fun s member written => ?_
    rw [flat] at member
    obtain ⟨i, here, one⟩ := List.mem_flatMap.mp member
    obtain rfl := List.mem_singleton.mp one
    exact outside i ((inside i).mp here) written
  cases w with
  | ext w e => exact frame fun e _ same => by cases same
  | own core r => exact absurd rfl (shared core r)
  | loc w b e =>
    rw [axpy]
    split
    · next here =>
        obtain ⟨rfl, rfl, small⟩ := here
        obtain ⟨m', same, result⟩ := after_one (S := Statement.semantics)
          (f := fun i => [(axpy_element a (.loc X bX i) (.loc Y bY i) (.loc w b i) : Step E L F)])
          ((inside e).mpr small) nodup m
        rw [flat]
        refine (result (.loc w b e) ?_).trans ((Function.update_self _ _ _).trans ?_)
        · intro i _ other s one written
          obtain rfl := List.mem_singleton.mp one
          injection (show (.loc w b e : Word E L) = .loc w b i from written) with _ _ element
          exact other element.symm
        · rw [same (.loc X bX e), same (.loc Y bY e)]
          all_goals
            intro i _ _ s one written
            obtain rfl := List.mem_singleton.mp one
            injection (show (.loc _ _ e : Word E L) = .loc w b i from written) with array
          · exact apart_y array.symm
          · exact apart_x array.symm
    · next outside =>
        refine frame fun e' small same => outside ?_
        injection same with array buffer element
        exact ⟨array, buffer, element ▸ small⟩

end Axpy

end SnitchCluster.Kernels.Blas
