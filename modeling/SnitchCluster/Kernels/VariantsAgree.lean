/-
# Kernels.VariantsAgree -- the kernel variants of the BLAS jobs

A problem size that a data generator accepts is run by any variant that it accepts the size for, on
tiles and eight compute cores.  The variants agree when they leave the same memory and touch and
stream nothing but their operands (`Agree`).

The checks of `SyrkDataGen.validate` leave out the unrolled loop over `k`: `syrk_baseline` then
reads behind its operands.  None of the generators excludes sizes of zero, for which the streams
are programmed with bounds of `2^32`.  For all other sizes the variants agree (`variants_agree`).
-/
import SnitchCluster.Kernels.TileJobs

namespace SnitchCluster.Kernels.Blas

open Theory Theory.Loops Theory.Supersteps

/-! ## Agreement -/

section Agree

variable {V α E L F : Type} {num : Nat} {accepted : V → Prop}
  {variant : V → Nat → Variant α (Word E L) F} {operands : Word E L → Prop}

/-- The accepted variants keep to their operands and leave the same. -/
structure Agree (num : Nat) (accepted : V → Prop) (variant : V → Nat → Variant α (Word E L) F)
    (operands : Word E L → Prop) : Prop where
  confined : ∀ v, accepted v → ∀ core < num, (variant v core).Confined operands core
  same : ∀ v v', accepted v → accepted v' → ∀ m s s',
    Ends num (fun core => (variant v core).code) m s →
      Ends num (fun core => (variant v' core).code) m s' →
        ∀ x, Shared x → s.memory x = s'.memory x

theorem Agree.of_leaves (outcome : (Word E L → F) → Word E L → F)
    (confined : ∀ v, accepted v → ∀ core < num, (variant v core).Confined operands core)
    (leaves : ∀ v, accepted v → Leaves num (fun core => (variant v core).code) outcome) :
    Agree num accepted variant operands where
  confined := confined
  same v v' first second m s s' ends ends' x shared :=
    (leaves v first m s ends x shared).trans (leaves v' second m s' ends' x shared).symm

variable {code : Nat → List (Step E L F)} {R : Word E L → Prop} {W : Nat → Word E L → Prop}

/-- What is parted among the cores is confined to the parts. -/
theorem Parted.confined (parted : Parted num code R W) {core : Nat} (worker : core < num)
    {v : Variant α (Word E L) F} (same : v.code = code core) (reads : ∀ x, R x → operands x)
    (writes : ∀ x, W core x → operands x)
    (streams : ∀ stream ∈ v.streams, stream.length = pops v.steps ∧ ∀ x ∈ stream, operands x) :
    v.Confined operands core := by
  refine ⟨fun s member x touched => ?_, streams⟩
  rw [same] at member
  obtain ⟨read, written⟩ := parted.within core worker s member
  have target : (W core x ∨ ∃ r, x = .own core r) → operands x ∨ ∃ r, x = .own core r :=
    fun here => here.imp_left (writes x)
  rcases touched with touched | touched
  · exact (read x touched).elim (fun here => .inl (reads x here)) target
  · exact target (written x touched)

end Agree

/-! ## The data generators -/

/-- The compute cores of the cluster. -/
def n_cores : Nat := 8

/-- `validate_tcdm_footprint` -/
def validate_tcdm_footprint (size : Nat) : Prop := size < 112 * 1024

inductive SyrkFuncptr
  | naive
  | baseline
  | opt
  deriving DecidableEq

structure SyrkSize where
  m : Nat
  n : Nat
  m_tiles : Nat

def SyrkSize.m_frac (size : SyrkSize) : Nat := size.m / size.m_tiles

/-- `SyrkDataGen.validate` -/
def SyrkSize.validate (size : SyrkSize) (funcptr : SyrkFuncptr) : Prop :=
  0 < size.m_tiles ∧ size.m % size.m_tiles = 0 ∧ size.m_frac % n_cores = 0 ∧
    (funcptr ≠ .naive → size.m_frac % 4 = 0) ∧
    validate_tcdm_footprint (2 * (2 * (size.m_frac * size.n * 8) + size.m_frac * size.m_frac * 8))

inductive DoitgenFuncptr
  | naive
  | baseline
  | opt
  deriving DecidableEq

structure DoitgenSize where
  r : Nat
  q : Nat
  s : Nat
  r_tiles : Nat
  q_tiles : Nat

def DoitgenSize.r_per_tile (size : DoitgenSize) : Nat := size.r / size.r_tiles

def DoitgenSize.q_per_tile (size : DoitgenSize) : Nat := size.q / size.q_tiles

/-- `DoitgenDataGen.validate` -/
def DoitgenSize.validate (size : DoitgenSize) (funcptr : DoitgenFuncptr) : Prop :=
  0 < size.r_tiles ∧ size.r % size.r_tiles = 0 ∧ 0 < size.q_tiles ∧ size.q % size.q_tiles = 0 ∧
    (funcptr ≠ .naive → size.s % 4 = 0) ∧ size.r_per_tile % n_cores = 0 ∧
    validate_tcdm_footprint
      (2 * (2 * (size.r_per_tile * size.q_per_tile * size.s * 8) + size.s * size.s * 8))

inductive AxpyFuncptr
  | naive
  | fma
  | opt
  deriving DecidableEq

structure AxpySize where
  n : Nat
  n_tiles : Nat

def AxpySize.n_per_tile (size : AxpySize) : Nat := size.n / size.n_tiles

/-- `AxpyDataGen.validate` -/
def AxpySize.validate (size : AxpySize) (_funcptr : AxpyFuncptr) : Prop :=
  0 < size.n_tiles ∧ size.n % size.n_tiles = 0 ∧ size.n_per_tile % 8 = 0 ∧
    validate_tcdm_footprint (2 * 3 * (size.n_per_tile * 8))

section Decidable

instance (size : Nat) : Decidable (validate_tcdm_footprint size) := Nat.decLt ..

instance (size : SyrkSize) (funcptr : SyrkFuncptr) : Decidable (size.validate funcptr) :=
  inferInstanceAs (Decidable (_ < _ ∧ _ = _ ∧ _ = _ ∧ (_ → _ = _) ∧ validate_tcdm_footprint _))

instance (size : DoitgenSize) (funcptr : DoitgenFuncptr) : Decidable (size.validate funcptr) :=
  inferInstanceAs (Decidable
    (_ < _ ∧ _ = _ ∧ _ < _ ∧ _ = _ ∧ (_ → _ = _) ∧ _ = _ ∧ validate_tcdm_footprint _))

instance (size : AxpySize) (funcptr : AxpyFuncptr) : Decidable (size.validate funcptr) :=
  inferInstanceAs (Decidable (_ < _ ∧ _ = _ ∧ _ = _ ∧ validate_tcdm_footprint _))

end Decidable

variable {F : Type} [CommSemiring F]

/-! ## syrk -/

section Syrk

variable [DecidableEq F]

/-- The kernel that a function pointer names, on set `b` of the buffers. -/
def SyrkFuncptr.call (funcptr : SyrkFuncptr) (b core m n : Nat) (alpha beta : F) :
    Variant (Word SyrkArray SyrkBuffer × Word SyrkArray SyrkBuffer) (Word SyrkArray SyrkBuffer) F :=
  let a := .loc .local_a b
  let at' := .loc .local_at b
  let c := .loc .local_c b
  match funcptr with
  | .naive => .plain (syrk_naive n_cores core m n alpha a at' beta c)
  | .baseline => .plain (syrk_baseline n_cores core m n alpha a at' beta c)
  | .opt => syrk_opt n_cores core m n alpha a at' beta c

/-- The operand arrays of a call. -/
def syrkOperands (b m n : Nat) (x : Word SyrkArray SyrkBuffer) : Prop :=
  (∃ e < m * n, x = .loc .local_a b e ∨ x = .loc .local_at b e) ∨
    ∃ e < m * m, x = .loc .local_c b e

/-- The variants of `syrk` agree on the tiles of a problem. -/
def SyrkSize.VariantsAgree (F : Type) [CommSemiring F] [DecidableEq F] (size : SyrkSize) : Prop :=
  ∀ (b : Nat) (alpha beta : F), Agree n_cores size.validate
    (fun funcptr core => funcptr.call b core size.m_frac size.n alpha beta)
    (syrkOperands b size.m_frac size.n)

variable {b core m n : Nat} {alpha beta : F}

/-- Whatever the variant, it is made of blocks. -/
theorem syrk_blocks (b : Nat) (alpha beta : F) (funcptr : SyrkFuncptr) (some_m : 0 < m)
    (some_n : 0 < n) (cores : n_cores ∣ m) (whole : 4 ∣ n) (few_m : m ≤ 2 ^ 32)
    (few_n : n ≤ 2 ^ 32) :
    ∃ w code, 0 < w ∧ w ∣ m ∧
      Blocks n_cores w m n b b b .local_a .local_at .local_c (fun v s => v * beta + alpha * s)
        (fun core => dealtRows n_cores core m) code ∧
      ∀ core, (funcptr.call b core m n alpha beta).code =
        products w m (dealtRows n_cores core m) (code core) := by
  have four : 4 ∣ m := (by decide : 4 ∣ n_cores).trans cores
  cases funcptr with
  | naive =>
    exact ⟨1, _, Nat.one_pos, one_dvd m, blocks_of_finishes (fun core =>
      syrk_finish 1 core alpha beta) fun _ _ => syrk_finishes,
      fun core => (Variant.plain_code _).trans syrk_naive_eq⟩
  | baseline =>
    exact ⟨4, _, by decide, four, blocks_of_finishes (fun core =>
      syrk_finish 4 core alpha beta) fun _ _ => syrk_finishes,
      fun core => (Variant.plain_code _).trans (syrk_baseline_eq whole)⟩
  | opt =>
    exact ⟨4, _, by decide, four, blocks_of_finishes (fun core =>
      syrk_opt_finish core alpha beta) fun _ _ => syrk_opt_finishes,
      fun core => (syrk_opt_eq some_m some_n cores four few_m few_n).1⟩

theorem syrk_streams (funcptr : SyrkFuncptr) (worker : core < n_cores) (some_m : 0 < m)
    (some_n : 0 < n) (cores : n_cores ∣ m) (few_m : m ≤ 2 ^ 32) (few_n : n ≤ 2 ^ 32) :
    ∀ stream ∈ (funcptr.call b core m n alpha beta).streams,
      stream.length = pops (funcptr.call b core m n alpha beta).steps ∧
        ∀ x ∈ stream, syrkOperands b m n x := by
  cases funcptr with
  | naive | baseline => exact fun stream none => by cases none
  | opt =>
    have four : 4 ∣ m := (by decide : 4 ∣ n_cores).trans cores
    obtain ⟨rows, columns⟩ := syrk_opt_streams worker some_m some_n cores four few_m few_n
    refine fun stream member =>
      ⟨(syrk_opt_eq some_m some_n cores four few_m few_n).2 stream member, ?_⟩
    simp only [SyrkFuncptr.call, syrk_opt, List.mem_cons, List.not_mem_nil, or_false] at member
    rcases member with is | is
    · intro x here
      rw [is] at here
      obtain ⟨e, taken, rfl⟩ := List.mem_map.mp here
      exact .inl ⟨e, rows e taken, .inl rfl⟩
    · intro x here
      rw [is] at here
      obtain ⟨e, taken, rfl⟩ := List.mem_map.mp here
      exact .inl ⟨e, columns e taken, .inr rfl⟩

theorem SyrkSize.agree (size : SyrkSize) {funcptr : SyrkFuncptr} (accepted : size.validate funcptr)
    (some_m : 0 < size.m_frac) (some_n : 0 < size.n) (whole : size.n % 4 = 0) :
    size.VariantsAgree F := by
  obtain ⟨-, -, cores, -, small⟩ := accepted
  have cores := Nat.dvd_of_mod_eq_zero cores
  have whole := Nat.dvd_of_mod_eq_zero whole
  have few_m : size.m_frac ≤ 2 ^ 32 := by
    have square := Nat.le_mul_of_pos_left size.m_frac some_m
    unfold validate_tcdm_footprint at small
    omega
  have few_n : size.n ≤ 2 ^ 32 := by
    have area := Nat.le_mul_of_pos_left size.n some_m
    unfold validate_tcdm_footprint at small
    omega
  intro b alpha beta
  have made := fun funcptr : SyrkFuncptr =>
    syrk_blocks b alpha beta funcptr some_m some_n cores whole few_m few_n
  have dealt := dealtRows_dealt (M := size.m_frac) (by decide : 0 < n_cores)
  refine .of_leaves (product size.m_frac size.m_frac size.n b b b .local_a .local_at .local_c
    fun v s => v * beta + alpha * s) (fun funcptr _ core worker => ?_) fun funcptr _ => ?_
  · obtain ⟨w, code, some, columns, blocks, same⟩ := made funcptr
    refine (blocks.parted dealt some columns (by decide) (by decide)).confined worker (same core)
      ?_ ?_ (syrk_streams funcptr worker some_m some_n cores few_m few_n)
    · rintro x (⟨e, inside, rfl⟩ | ⟨e, inside, rfl⟩)
      · exact .inl ⟨e, inside, .inl rfl⟩
      · exact .inl ⟨e, inside, .inr rfl⟩
    · rintro x ⟨i, mine, j, column, rfl⟩
      exact .inr ⟨_, grid_lt (dealt.inside core worker i mine) column, rfl⟩
  · obtain ⟨w, code, some, columns, blocks, same⟩ := made funcptr
    rw [funext same]
    exact blocks.leaves dealt (by decide) some columns (by decide) (by decide)

/-- `syrk_baseline` reads a word behind `a` when its products are no multiple of four. -/
theorem syrk_baseline_reads (b : Nat) (alpha beta : F) (some_m : 0 < m) (cores : n_cores ∣ m)
    (rest : n % 4 ≠ 0) :
    ∃ s ∈ (SyrkFuncptr.baseline.call b 7 m n alpha beta).code,
      s.reads (.loc .local_a b (m * n)) := by
  have last : m - 1 + 1 = m := Nat.sub_add_cancel some_m
  refine ⟨fmadd (.own 7 0) (.loc .local_a b ((m - 1) * n + (n / 4 * 4 + n % 4)))
    (.loc .local_at b ((0 + 0) * n + (n / 4 * 4 + n % 4))) (.own 7 0), ?_, .inl ?_⟩
  · have row : m - 1 ∈ dealtRows n_cores 7 m := by
      refine (mem_dealtRows (by decide)).mpr ⟨by omega, ?_⟩
      unfold n_cores at cores ⊢
      omega
    have column : 0 ∈ dealtRows 4 0 m := (mem_dealtRows (by decide)).mpr ⟨some_m, rfl⟩
    have term : n / 4 * 4 ∈ dealtRows 4 0 n :=
      (mem_dealtRows (by decide)).mpr ⟨by omega, Nat.mul_mod_left _ _⟩
    simp only [SyrkFuncptr.call, Variant.plain_code, syrk_baseline]
    refine List.mem_flatMap.mpr ⟨_, row, List.mem_flatMap.mpr ⟨0, column, ?_⟩⟩
    refine List.mem_append_left _ (List.mem_append_right _ ?_)
    refine List.mem_flatMap.mpr ⟨_, term, List.mem_flatMap.mpr ⟨n % 4, ?_, ?_⟩⟩
    · exact List.mem_range.mpr (Nat.mod_lt n (by decide))
    · exact List.mem_map.mpr ⟨0, by decide, rfl⟩
  · rw [Nat.div_add_mod']
    congr 1
    rw [← Nat.succ_mul, Nat.succ_eq_add_one, last]

theorem SyrkSize.agree_only (size : SyrkSize) {funcptr : SyrkFuncptr}
    (accepted : size.validate funcptr) (agree : size.VariantsAgree F) :
    0 < size.m_frac ∧ 0 < size.n ∧ size.n % 4 = 0 := by
  obtain ⟨some_tile, tiles, cores, -, small⟩ := accepted
  have four : size.m_frac % 4 = 0 := by
    unfold n_cores at cores
    omega
  have accepts : ∀ funcptr, size.validate funcptr :=
    fun funcptr => ⟨some_tile, tiles, cores, fun _ => four, small⟩
  have inside : ∀ {e}, syrkOperands 0 size.m_frac size.n (.loc .local_a 0 e) →
      e < size.m_frac * size.n := by
    rintro e (⟨e', inside, same | same⟩ | ⟨e', _, same⟩) <;> injection same with same _ element
    · exact element ▸ inside
    · cases same
    · cases same
  obtain ⟨confined, -⟩ := agree 0 0 0
  -- the streams of an empty product fetch a first word
  have some : 0 < size.m_frac * size.n := by
    have first := ((confined .opt (accepts _) 0 (by decide)).streams _ (List.mem_cons_self ..)).2
    exact Nat.zero_lt_of_lt (inside (first _ (List.mem_map.mpr ⟨_, head_mem_rowStream, rfl⟩)))
  have some_m := Nat.pos_of_mul_pos_right some
  refine ⟨some_m, Nat.pos_of_mul_pos_left some, ?_⟩
  by_contra rest
  obtain ⟨s, member, read⟩ :=
    syrk_baseline_reads 0 (0 : F) 0 some_m (Nat.dvd_of_mod_eq_zero cores) rest
  rcases (confined .baseline (accepts _) 7 (by decide)).touches s member _ (.inl read) with
    here | ⟨r, same⟩
  · exact Nat.lt_irrefl _ (inside here)
  · cases same

end Syrk

/-! ## doitgen -/

section Doitgen

def DoitgenFuncptr.call (F : Type) [CommSemiring F] (funcptr : DoitgenFuncptr)
    (b core r q s : Nat) :
    Variant (Word DoitgenArray DoitgenBuffer × Word DoitgenArray DoitgenBuffer)
      (Word DoitgenArray DoitgenBuffer) F :=
  let A := .loc .local_a b
  let x := .loc .local_x 0
  let Aout := .loc .local_aout b
  match funcptr with
  | .naive => .plain (doitgen_naive n_cores core r q s A x Aout)
  | .baseline => .plain (doitgen_baseline n_cores core r q s A x Aout)
  | .opt => doitgen_opt n_cores core r q s A x Aout

def doitgenOperands (b r q s : Nat) (x : Word DoitgenArray DoitgenBuffer) : Prop :=
  (∃ e < r * q * s, x = .loc .local_a b e ∨ x = .loc .local_aout b e) ∨
    ∃ e < s * s, x = .loc .local_x 0 e

/-- The variants of `doitgen` agree on the tiles of a problem. -/
def DoitgenSize.VariantsAgree (F : Type) [CommSemiring F] (size : DoitgenSize) : Prop :=
  ∀ b : Nat, Agree n_cores size.validate
    (fun funcptr core => funcptr.call F b core size.r_per_tile size.q_per_tile size.s)
    (doitgenOperands b size.r_per_tile size.q_per_tile size.s)

variable {b core r q s : Nat}

/-- The unrolled and the streamed variant need more than the naive one. -/
theorem doitgen_blocks (funcptr : DoitgenFuncptr) (cores : n_cores ∣ r)
    (unrolled : funcptr ≠ .naive → 4 ∣ s ∧ 0 < r ∧ 0 < q ∧ 0 < s ∧ q * r ≤ 2 ^ 32 ∧ s ≤ 2 ^ 32) :
    ∃ w rows code, 0 < w ∧ w ∣ s ∧ Dealt n_cores (r * q) rows ∧
      Blocks n_cores w s s b 0 b .local_a .local_x .local_aout (fun _ v => v) rows code ∧
      ∀ core, (funcptr.call F b core r q s).code = products w s (rows core) (code core) := by
  have dealt := planeRows_dealt (q := q) (dealtRows_dealt (M := r) (by decide : 0 < n_cores))
  cases funcptr with
  | naive =>
    exact ⟨1, _, _, Nat.one_pos, one_dvd s, dealt, blocks_in_place (by decide) (by decide),
      fun core => (Variant.plain_code _).trans doitgen_naive_eq⟩
  | baseline =>
    obtain ⟨four, -⟩ := unrolled (by decide)
    exact ⟨4, _, _, by decide, four, dealt,
      blocks_of_finishes (fun core => doitgen_finish core) fun _ _ => doitgen_finishes,
      fun core => (Variant.plain_code _).trans (doitgen_baseline_eq four)⟩
  | opt =>
    obtain ⟨four, some_r, some_q, some_s, few_rows, few_s⟩ := unrolled (by decide)
    exact ⟨4, _, _, by decide, four, planeRows_dealt (blockRows_dealt (by decide) cores),
      blocks_of_finishes (fun core => doitgen_finish core) fun _ _ => doitgen_finishes,
      fun core => (doitgen_opt_eq some_r some_q some_s cores four few_rows few_s).1⟩

theorem doitgen_streams (funcptr : DoitgenFuncptr) (worker : core < n_cores) (cores : n_cores ∣ r)
    (unrolled : funcptr ≠ .naive → 4 ∣ s ∧ 0 < r ∧ 0 < q ∧ 0 < s ∧ q * r ≤ 2 ^ 32 ∧ s ≤ 2 ^ 32) :
    ∀ stream ∈ (funcptr.call F b core r q s).streams,
      stream.length = pops (funcptr.call F b core r q s).steps ∧
        ∀ x ∈ stream, doitgenOperands b r q s x := by
  cases funcptr with
  | naive | baseline => exact fun stream none => by cases none
  | opt =>
    obtain ⟨four, some_r, some_q, some_s, few_rows, few_s⟩ := unrolled (by decide)
    obtain ⟨rows, columns⟩ :=
      doitgen_opt_streams worker some_r some_q some_s cores four few_rows few_s
    refine fun stream member =>
      ⟨(doitgen_opt_eq some_r some_q some_s cores four few_rows few_s).2 stream member, ?_⟩
    simp only [DoitgenFuncptr.call, doitgen_opt, List.mem_cons, List.not_mem_nil, or_false]
      at member
    rcases member with is | is
    · intro x here
      rw [is] at here
      obtain ⟨e, taken, rfl⟩ := List.mem_map.mp here
      exact .inl ⟨e, rows e taken, .inl rfl⟩
    · intro x here
      rw [is] at here
      obtain ⟨e, taken, rfl⟩ := List.mem_map.mp here
      exact .inr ⟨e, columns e taken, rfl⟩

theorem DoitgenSize.agree (size : DoitgenSize) {funcptr : DoitgenFuncptr}
    (accepted : size.validate funcptr)
    (some : size.s % 4 = 0 → 0 < size.r_per_tile ∧ 0 < size.q_per_tile ∧ 0 < size.s) :
    size.VariantsAgree F := by
  obtain ⟨-, -, -, -, -, cores, small⟩ := accepted
  have cores := Nat.dvd_of_mod_eq_zero cores
  have unrolled : ∀ funcptr, size.validate funcptr → funcptr ≠ .naive →
      4 ∣ size.s ∧ 0 < size.r_per_tile ∧ 0 < size.q_per_tile ∧ 0 < size.s ∧
        size.q_per_tile * size.r_per_tile ≤ 2 ^ 32 ∧ size.s ≤ 2 ^ 32 := by
    rintro funcptr ⟨-, -, -, -, four, -⟩ other
    have four := four other
    obtain ⟨some_r, some_q, some_s⟩ := some four
    have volume := Nat.le_mul_of_pos_right (size.r_per_tile * size.q_per_tile) some_s
    have square := Nat.le_mul_of_pos_left size.s some_s
    rw [Nat.mul_comm size.q_per_tile]
    unfold validate_tcdm_footprint at small
    exact ⟨Nat.dvd_of_mod_eq_zero four, some_r, some_q, some_s, by omega, by omega⟩
  intro b
  refine .of_leaves (product (size.r_per_tile * size.q_per_tile) size.s size.s b 0 b .local_a
    .local_x .local_aout fun _ v => v) (fun funcptr accepts core worker => ?_)
    fun funcptr accepts => ?_
  · obtain ⟨w, rows, code, some, columns, dealt, blocks, same⟩ :=
      doitgen_blocks (F := F) (b := b) funcptr cores (unrolled funcptr accepts)
    refine (blocks.parted dealt some columns (by decide) (by decide)).confined worker (same core)
      ?_ ?_ (doitgen_streams funcptr worker cores (unrolled funcptr accepts))
    · rintro x (⟨e, inside, rfl⟩ | ⟨e, inside, rfl⟩)
      · exact .inl ⟨e, inside, .inl rfl⟩
      · exact .inr ⟨e, inside, rfl⟩
    · rintro x ⟨i, mine, j, column, rfl⟩
      exact .inl ⟨_, grid_lt (dealt.inside core worker i mine) column, .inr rfl⟩
  · obtain ⟨w, rows, code, some, columns, dealt, blocks, same⟩ :=
      doitgen_blocks (F := F) (b := b) funcptr cores (unrolled funcptr accepts)
    rw [funext same]
    exact blocks.leaves dealt (by decide) some columns (by decide) (by decide)

theorem DoitgenSize.agree_only (size : DoitgenSize) {funcptr : DoitgenFuncptr}
    (accepted : size.validate funcptr) (agree : size.VariantsAgree F) (four : size.s % 4 = 0) :
    0 < size.r_per_tile ∧ 0 < size.q_per_tile ∧ 0 < size.s := by
  obtain ⟨some_r, tiles_r, some_q, tiles_q, -, cores, small⟩ := accepted
  have accepts : ∀ funcptr, size.validate funcptr :=
    fun funcptr => ⟨some_r, tiles_r, some_q, tiles_q, fun _ => four, cores, small⟩
  obtain ⟨confined, -⟩ := agree 0
  have first := ((confined .opt (accepts _) 0 (by decide)).streams _ (List.mem_cons_self ..)).2 _
    (List.mem_map.mpr ⟨_, head_mem_rowStream, rfl⟩)
  rcases first with ⟨e, inside, -⟩ | ⟨e, -, same⟩
  · have some := Nat.zero_lt_of_lt inside
    have plane := Nat.pos_of_mul_pos_right some
    exact ⟨Nat.pos_of_mul_pos_right plane, Nat.pos_of_mul_pos_left plane,
      Nat.pos_of_mul_pos_left some⟩
  · injection same with array
    cases array

end Doitgen

/-! ## axpy -/

section Axpy

def AxpyFuncptr.call (funcptr : AxpyFuncptr) (b core n : Nat) (a : F) :
    Variant (Word AxpyArray AxpyBuffer × Word AxpyArray AxpyBuffer × Word AxpyArray AxpyBuffer)
      (Word AxpyArray AxpyBuffer) F :=
  let x := .loc .local_x b
  let y := .loc .local_y b
  let z := .loc .local_z b
  match funcptr with
  | .naive => .plain (axpy_naive n_cores core n a x y z)
  | .fma => .plain (axpy_fma n_cores core n a x y z)
  | .opt => axpy_opt n_cores core n a x y z

def axpyOperands (b n : Nat) (w : Word AxpyArray AxpyBuffer) : Prop :=
  ∃ e < n, w = .loc .local_x b e ∨ w = .loc .local_y b e ∨ w = .loc .local_z b e

/-- The variants of `axpy` agree on the tiles of a problem. -/
def AxpySize.VariantsAgree (F : Type) [CommSemiring F] (size : AxpySize) : Prop :=
  ∀ (b : Nat) (a : F), Agree n_cores size.validate
    (fun funcptr core => funcptr.call b core size.n_per_tile a) (axpyOperands b size.n_per_tile)

variable {b core n : Nat} {a : F}

theorem axpy_code (core : Nat) (funcptr : AxpyFuncptr) (some : 0 < n) (cores : n_cores ∣ n)
    (few : n ≤ 2 ^ 32) : (funcptr.call b core n a).code =
      axpy_naive n_cores core n a (.loc .local_x b) (.loc .local_y b) (.loc .local_z b) := by
  cases funcptr with
  | naive | fma => exact Variant.plain_code _
  | opt => exact (axpy_opt_eq (by decide) some cores few).1

theorem axpy_streams (funcptr : AxpyFuncptr) (worker : core < n_cores) (some : 0 < n)
    (cores : n_cores ∣ n) (few : n ≤ 2 ^ 32) :
    ∀ stream ∈ (funcptr.call b core n a).streams,
      stream.length = pops (funcptr.call b core n a).steps ∧ ∀ w ∈ stream, axpyOperands b n w := by
  cases funcptr with
  | naive | fma => exact fun stream none => by cases none
  | opt =>
    have elements : ∀ e ∈ axpy_opt_ft n_cores core n, e < n := by
      intro e taken
      rw [axpy_opt_ft_eq (by decide) some cores few] at taken
      exact ((mem_dealtRows worker).mp taken).1
    refine fun stream member =>
      ⟨(axpy_opt_eq (by decide) some cores few).2 stream member, fun w here => ?_⟩
    simp only [AxpyFuncptr.call, axpy_opt, List.mem_cons, List.not_mem_nil, or_false] at member
    rcases member with is | is | is
    all_goals
      rw [is] at here
      obtain ⟨e, taken, rfl⟩ := List.mem_map.mp here
      exact ⟨e, elements e taken, by simp⟩

theorem AxpySize.agree (size : AxpySize) {funcptr : AxpyFuncptr} (accepted : size.validate funcptr)
    (some : 0 < size.n_per_tile) : size.VariantsAgree F := by
  obtain ⟨-, -, cores, small⟩ := accepted
  have cores : n_cores ∣ size.n_per_tile := Nat.dvd_of_mod_eq_zero cores
  have few : size.n_per_tile ≤ 2 ^ 32 := by
    unfold validate_tcdm_footprint at small
    omega
  intro b a
  refine .of_leaves (axpy size.n_per_tile b b b .local_x .local_y .local_z a)
    (fun funcptr _ core worker => ?_) fun funcptr _ => ?_
  · refine (axpy_parted (by decide) (by decide) (by decide)).confined worker
      (axpy_code core funcptr some cores few) ?_ ?_ (axpy_streams funcptr worker some cores few)
    · rintro w ⟨e, inside, rfl | rfl⟩ <;> exact ⟨e, inside, by simp⟩
    · rintro w ⟨i, mine, rfl⟩
      exact ⟨i, ((mem_dealtRows worker).mp mine).1, by simp⟩
  · rw [funext fun core => axpy_code core funcptr some cores few]
    exact axpy_leaves (by decide) (by decide) (by decide)

theorem AxpySize.agree_only (size : AxpySize) {funcptr : AxpyFuncptr}
    (accepted : size.validate funcptr) (agree : size.VariantsAgree F) : 0 < size.n_per_tile := by
  obtain ⟨confined, -⟩ := agree 0 0
  obtain ⟨e, inside, -⟩ := ((confined .opt accepted 0 (by decide)).streams _
    (List.mem_cons_self ..)).2 _ (List.mem_map.mpr ⟨_, head_mem_streamed _ _, rfl⟩)
  exact Nat.zero_lt_of_lt inside

end Axpy

/-! ## All jobs -/

/-- **When the variants agree.** -/
theorem variants_agree (F : Type) [CommSemiring F] [DecidableEq F] :
    (∀ size : SyrkSize, (∃ funcptr, size.validate funcptr) →
      (size.VariantsAgree F ↔ 0 < size.m_frac ∧ 0 < size.n ∧ size.n % 4 = 0)) ∧
    (∀ size : DoitgenSize, (∃ funcptr, size.validate funcptr) →
      (size.VariantsAgree F ↔
        (size.s % 4 = 0 → 0 < size.r_per_tile ∧ 0 < size.q_per_tile ∧ 0 < size.s))) ∧
    ∀ size : AxpySize, (∃ funcptr, size.validate funcptr) →
      (size.VariantsAgree F ↔ 0 < size.n_per_tile) := by
  refine ⟨fun size ⟨funcptr, accepted⟩ => ⟨size.agree_only accepted, ?_⟩,
    fun size ⟨funcptr, accepted⟩ => ⟨size.agree_only accepted, size.agree accepted⟩,
    fun size ⟨funcptr, accepted⟩ => ⟨size.agree_only accepted, size.agree accepted⟩⟩
  exact fun ⟨some_m, some_n, whole⟩ => size.agree accepted some_m some_n whole

theorem variants_agree_tiles : (⟨16, 8, 2⟩ : SyrkSize).VariantsAgree ℤ ∧
    (⟨16, 3, 4, 2, 1⟩ : DoitgenSize).VariantsAgree ℤ ∧ (⟨48, 3⟩ : AxpySize).VariantsAgree ℤ :=
  ⟨((variants_agree ℤ).1 ⟨16, 8, 2⟩ ⟨.opt, by decide⟩).mpr (by decide),
    ((variants_agree ℤ).2.1 ⟨16, 3, 4, 2, 1⟩ ⟨.opt, by decide⟩).mpr (by decide),
    ((variants_agree ℤ).2.2 ⟨48, 3⟩ ⟨.opt, by decide⟩).mpr (by decide)⟩

/-- A problem that the generator accepts and `syrk_baseline` reads beyond. -/
theorem syrk_rest_disagrees : (⟨8, 5, 1⟩ : SyrkSize).validate .baseline ∧
    ¬(⟨8, 5, 1⟩ : SyrkSize).VariantsAgree ℤ := by
  have accepted : (⟨8, 5, 1⟩ : SyrkSize).validate .baseline := by decide
  refine ⟨accepted, fun agree => ?_⟩
  obtain ⟨-, -, whole⟩ := SyrkSize.agree_only _ accepted agree
  exact absurd whole (by decide)

end SnitchCluster.Kernels.Blas
