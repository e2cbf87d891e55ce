/-
# Kernels.FlashAttentionPhases -- who reads what between the barriers of FlashAttention-2

The same kernel with `baseline` cleared, as the accesses of its cores: the data mover loads and
stores tiles, the compute cores deal the rows of the tiles out strided (`sc_st_gemm`), block by
block with the last core taking the remainder (softmax and rescaling) and in truncated blocks
(`transpose_kernel` of `sw/kernels/dnn/transpose/src/transpose.h`).

An element carries the phase that last wrote it, and a read says from which phase it needs its
value.  Between the transpose of `V` and the product with it there is no barrier, and with
`B_c` no multiple of the core count the transpose leaves rows out.  Where neither can happen
every read finds its value (`flashattention_2_reads_finished`).
-/
import SnitchCluster.Kernels.FlashAttention
import SnitchCluster.Theory.Supersteps

namespace SnitchCluster.Kernels.FlashAttentionPhases

open Theory Theory.Supersteps

inductive Buffer
  | Q_fa | K_fa | V_fa | S_fa | P_fa | V_t | O_fa
  deriving DecidableEq, Repr

/-- An element of a buffer in the cluster's memory. -/
abbrev Element : Type := Buffer × Nat

/-- What the cores do from one point to the next, in the `t_r` and `t_c` loops. -/
inductive Phase
  | loadQ (t_r : Nat)
  | init (t_r : Nat)
  | loadKV (t_r t_c : Nat)
  | scores (t_r t_c : Nat)
  | softmax (t_r t_c : Nat)
  | transpose (t_r t_c : Nat)
  | output (t_r t_c : Nat)
  | rescale (t_r : Nat)
  | store (t_r : Nat)
  deriving DecidableEq, Repr

/-- `read x p` needs the value of `x` that phase `p` computes, `write x p` leaves it. -/
inductive Access
  | read (x : Element) (p : Phase)
  | write (x : Element) (p : Phase)
  deriving DecidableEq, Repr

namespace Access

def run : Access → (Element → Option Phase) → Element → Option Phase
  | read _ _, m => m
  | write x p, m => Function.update m x (some p)

def Reads : Access → Element → Prop
  | read y _, x => y = x
  | write _ _, _ => False

def Writes : Access → Element → Prop
  | read _ _, _ => False
  | write y _, x => y = x

/-- A read finds the value it needs. -/
def Finished : Access → (Element → Option Phase) → Prop
  | read x p, m => m x = some p
  | write _ _, _ => True

end Access

/-- Each element carries the phase that wrote it last. -/
def stamps : Semantics Access Element (Option Phase) where
  run := Access.run
  reads := Access.Reads
  writes := Access.Writes
  frame a m x untouched := by
    cases a with
    | read y p => rfl
    | write y p => exact Function.update_of_ne (Ne.symm untouched) _ _
  determined a m m' _ x written := by
    cases a with
    | read y p => exact absurd written id
    | write y p =>
      obtain rfl : y = x := written
      simp [Access.run]

/-! ## The accesses of the kernel -/

/-- The layer's sizes, and the compute cores of the cluster. -/
structure Sizes where
  L : Nat
  S : Nat
  d : Nat
  B_r : Nat
  B_c : Nat
  num_cores : Nat

section Code

open Buffer Access Phase

/-- `sc_st_gemm` with `transb` set. -/
def gemmAccesses (core_num core_idx M N K lda ldb ldc : Nat) (readA readB : Nat → Access)
    (readC : Nat → List Access) (writeC : Nat → Access) : List Access :=
  let frac_m := M / core_num + if core_idx < M % core_num then 1 else 0
  (List.range frac_m).flatMap fun m => (List.range N).flatMap fun n =>
    let c := core_idx * ldc + (m * (core_num * ldc) + n)
    readC c ++
      (List.range K).flatMap (fun k =>
        [readA (core_idx * lda + (m * (core_num * lda) + k)), readB (n * ldb + k)]) ++
      [writeC c]

/-- The accesses of core `compute_id` to its block of rows. -/
def rowsAccesses (B_r num_cores compute_id : Nat) (row : Nat → List Access) : List Access :=
  let rows_per_core := B_r / num_cores
  let start_row := rows_per_core * compute_id
  let end_row := if compute_id = num_cores - 1 then B_r else start_row + rows_per_core
  (List.range (end_row - start_row)).flatMap fun i => row (start_row + i)

/-- A tile transfer of the data mover. -/
def tileAccesses (x1_size x0_size : Nat) (access : Nat → Access) : List Access :=
  (List.range x1_size).flatMap fun x1 => (List.range x0_size).map fun x0 =>
    access (x1 * x0_size + x0)

def softmaxRow (z : Sizes) (t_r t_c row_idx : Nat) : List Access :=
  (List.range z.B_c).map (fun col_idx => read (S_fa, row_idx * z.B_c + col_idx) (scores t_r t_c)) ++
  (List.range z.B_c).flatMap (fun col_idx =>
    [read (S_fa, row_idx * z.B_c + col_idx) (scores t_r t_c),
      write (P_fa, row_idx * z.B_c + col_idx) (softmax t_r t_c),
      read (P_fa, row_idx * z.B_c + col_idx) (softmax t_r t_c)]) ++
  if t_c ≠ 0 then
    (List.range z.d).flatMap fun col_idx =>
      [read (O_fa, row_idx * z.d + col_idx) (output t_r (t_c - 1)),
        write (O_fa, row_idx * z.d + col_idx) (softmax t_r t_c)]
  else []

def rescaleRow (z : Sizes) (t_r row_idx : Nat) : List Access :=
  (List.range z.d).flatMap fun col_idx =>
    [read (O_fa, row_idx * z.d + col_idx) (output t_r (z.S / z.B_c - 1)),
      write (O_fa, row_idx * z.d + col_idx) (rescale t_r)]

/-- `transpose_kernel(FP32, V_fa, V_t, B_c, d, baseline)` on one core. -/
def transposeAccesses (z : Sizes) (t_r t_c core_idx : Nat) : List Access :=
  let frac_M := z.B_c / z.num_cores
  let row_offset := core_idx * frac_M
  (List.range frac_M).flatMap fun m => (List.range z.d).flatMap fun n =>
    [read (V_fa, row_offset * z.d + (m * z.d + n)) (loadKV t_r t_c),
      write (V_t, row_offset + (n * z.B_c + m)) (transpose t_r t_c)]

/-- The accesses of a compute core. -/
def computeCode (z : Sizes) (core_idx : Nat) : Phase → List Access
  | loadQ _ => []
  | init _ => []
  | loadKV _ _ => []
  | scores t_r t_c =>
    gemmAccesses z.num_cores core_idx z.B_r z.B_c z.d z.d z.d z.B_c
      (fun x => read (Q_fa, x) (loadQ t_r)) (fun x => read (K_fa, x) (loadKV t_r t_c))
      (fun _ => []) (fun x => write (S_fa, x) (scores t_r t_c))
  | softmax t_r t_c => rowsAccesses z.B_r z.num_cores core_idx (softmaxRow z t_r t_c)
  | transpose t_r t_c => transposeAccesses z t_r t_c core_idx
  | output t_r t_c =>
    gemmAccesses z.num_cores core_idx z.B_r z.d z.B_c z.B_c z.B_c z.d
      (fun x => read (P_fa, x) (softmax t_r t_c)) (fun x => read (V_t, x) (transpose t_r t_c))
      (fun x => if t_c = 0 then [] else [read (O_fa, x) (softmax t_r t_c)])
      (fun x => write (O_fa, x) (output t_r t_c))
  | rescale t_r => rowsAccesses z.B_r z.num_cores core_idx (rescaleRow z t_r)
  | store _ => []

/-- The accesses of the data mover. -/
def moverCode (z : Sizes) : Phase → List Access
  | loadQ t_r => tileAccesses z.B_r z.d fun x => write (Q_fa, x) (loadQ t_r)
  | loadKV t_r t_c =>
    (tileAccesses z.B_c z.d fun x => write (K_fa, x) (loadKV t_r t_c)) ++
      tileAccesses z.B_c z.d fun x => write (V_fa, x) (loadKV t_r t_c)
  | store t_r => tileAccesses z.B_r z.d fun x => read (O_fa, x) (rescale t_r)
  | _ => []

/-- The data mover is the core after the compute cores. -/
def code (z : Sizes) (p : Phase) (i : Nat) : List Access :=
  if i = z.num_cores then moverCode z p else computeCode z i p

/-- The `t_c` loop. -/
def columnPhases (t_r t_c : Nat) : List Phase :=
  [loadKV t_r t_c, scores t_r t_c, softmax t_r t_c, transpose t_r t_c, output t_r t_c]

/-- The `t_r` loop. -/
def rowPhases (z : Sizes) (t_r : Nat) : List Phase :=
  [loadQ t_r, init t_r] ++ (List.range (z.S / z.B_c)).flatMap (columnPhases t_r) ++
    [rescale t_r, store t_r]

def IsTranspose : Phase → Bool
  | transpose _ _ => true
  | _ => false

/-- `flashattention_2_fp32` with `baseline` cleared.  Every phase ends in
`snrt_cluster_hw_barrier`, but for the transpose. -/
def flashattention_2_fp32 (z : Sizes) : Program Phase Access where
  agents := z.num_cores + 1
  schedule := (List.range (z.L / z.B_r)).flatMap (rowPhases z)
  code := code z
  waits p _ _ := !IsTranspose p

end Code

/-! ## Which rows a core has -/

section Rows

variable {core_num core_idx M m : Nat}

/-- The accesses to one entry of the product. -/
def gemmEntry (K lda ldb ldc : Nat) (readA readB : Nat → Access) (readC : Nat → List Access)
    (writeC : Nat → Access) (m n : Nat) : List Access :=
  readC (m * ldc + n) ++
    (List.range K).flatMap (fun k => [readA (m * lda + k), readB (n * ldb + k)]) ++
    [writeC (m * ldc + n)]

theorem mem_gemmEntry {K lda ldb ldc n : Nat} {readA readB writeC : Nat → Access}
    {readC : Nat → List Access} {a : Access} :
    a ∈ gemmEntry K lda ldb ldc readA readB readC writeC m n ↔
      a ∈ readC (m * ldc + n) ∨ (∃ k < K, a = readA (m * lda + k) ∨ a = readB (n * ldb + k)) ∨
        a = writeC (m * ldc + n) := by
  simp only [gemmEntry, List.mem_append, List.mem_flatMap, List.mem_range, List.mem_cons,
    List.not_mem_nil, or_false, or_assoc]

theorem gemmAccesses_eq {N K lda ldb ldc : Nat} {readA readB writeC : Nat → Access}
    {readC : Nat → List Access} :
    gemmAccesses core_num core_idx M N K lda ldb ldc readA readB readC writeC =
      (dealtRows core_num core_idx M).flatMap fun m => (List.range N).flatMap
        (gemmEntry K lda ldb ldc readA readB readC writeC m) := by
  simp only [gemmAccesses, dealtRows, List.flatMap_map, dealt_element]
  rfl

/-- A block of rows, with the remainder for the last core. -/
def blockRows (B_r num_cores compute_id : Nat) : List Nat :=
  (List.range ((if compute_id = num_cores - 1 then B_r
    else B_r / num_cores * compute_id + B_r / num_cores) - B_r / num_cores * compute_id)).map
    fun i => B_r / num_cores * compute_id + i

theorem rowsAccesses_eq {B_r num_cores i : Nat} {row : Nat → List Access} :
    rowsAccesses B_r num_cores i row = (blockRows B_r num_cores i).flatMap row := by
  simp only [rowsAccesses, blockRows, List.flatMap_map]

variable {B_r num_cores i j r : Nat}

theorem mem_blockRows : r ∈ blockRows B_r num_cores i ↔
    B_r / num_cores * i ≤ r ∧
      r < if i = num_cores - 1 then B_r else B_r / num_cores * i + B_r / num_cores := by
  simp only [blockRows, List.mem_map, List.mem_range]
  constructor
  · rintro ⟨q, below, rfl⟩
    omega
  · rintro ⟨above, below⟩
    exact ⟨r - B_r / num_cores * i, by omega, by omega⟩

theorem mem_blockRows_lt (core : i < num_cores) (mine : r ∈ blockRows B_r num_cores i) :
    r < B_r := by
  obtain ⟨_, below⟩ := mem_blockRows.mp mine
  split at below
  · exact below
  · have within : B_r / num_cores * (i + 1) ≤ B_r :=
      (Nat.mul_le_mul_left _ core).trans (Nat.div_mul_le_self B_r num_cores)
    rw [Nat.mul_add, Nat.mul_one] at within
    omega

/-- A row is in one block only. -/
theorem blockRows_unique (core : i < num_cores) (core' : j < num_cores)
    (mine : r ∈ blockRows B_r num_cores i) (yours : r ∈ blockRows B_r num_cores j) : i = j := by
  have le : ∀ i j, j < num_cores → r ∈ blockRows B_r num_cores i →
      r ∈ blockRows B_r num_cores j → j ≤ i := by
    intro i j core mine yours
    by_contra above
    have next := Nat.mul_le_mul_left (B_r / num_cores) (show i + 1 ≤ j by omega)
    rw [Nat.mul_add, Nat.mul_one] at next
    have ends := (mem_blockRows.mp mine).2
    have starts := (mem_blockRows.mp yours).1
    rw [if_neg (by omega)] at ends
    omega
  exact Nat.le_antisymm (le j i core yours mine) (le i j core' mine yours)

/-- And every row is in one. -/
theorem exists_blockRows (some_core : 0 < num_cores) (row : r < B_r) :
    ∃ i < num_cores, r ∈ blockRows B_r num_cores i := by
  by_cases last : B_r / num_cores * (num_cores - 1) ≤ r
  · refine ⟨num_cores - 1, by omega, mem_blockRows.mpr ⟨last, ?_⟩⟩
    rwa [if_pos rfl]
  · have some_row : 0 < B_r / num_cores := by
      rcases Nat.eq_zero_or_pos (B_r / num_cores) with none | some_row
      · rw [none, Nat.zero_mul] at last
        omega
      · exact some_row
    have below : r / (B_r / num_cores) < num_cores - 1 := by
      rw [Nat.div_lt_iff_lt_mul some_row, Nat.mul_comm]
      omega
    have whole := Nat.div_add_mod r (B_r / num_cores)
    have rest := Nat.mod_lt r some_row
    refine ⟨r / (B_r / num_cores), by omega, mem_blockRows.mpr ?_⟩
    rw [if_neg (by omega)]
    omega

theorem nodup_blockRows : (blockRows B_r num_cores i).Nodup :=
  List.nodup_range.map fun _ _ same => Nat.add_left_cancel same

/-- Rows in truncated blocks. -/
theorem transposed_lt (core : core_idx < core_num) (row : m < M / core_num) :
    core_idx * (M / core_num) + m < M := by
  have next := Nat.mul_le_mul_right (M / core_num) (show core_idx + 1 ≤ core_num from core)
  have within := Nat.mul_div_le M core_num
  rw [Nat.add_mul, Nat.one_mul] at next
  omega

theorem transposed_element (block n ld : Nat) : block + (n * ld + m) = n * ld + (block + m) := by
  omega

theorem element_row {ld m n : Nat} (column : n < ld) : (m * ld + n) / ld = m := by
  rw [Nat.mul_comm, Nat.mul_add_div (by omega), Nat.div_eq_of_lt column, Nat.add_zero]

theorem element_column {ld m n : Nat} (column : n < ld) : (m * ld + n) % ld = n := by
  rw [Nat.mul_comm, Nat.mul_add_mod, Nat.mod_eq_of_lt column]

end Rows

/-! ## No core touches what another writes in the same phase -/

section Races

open Buffer Access Phase

/-- The element an access is about. -/
def Access.element : Access → Element
  | read x _ => x
  | write x _ => x

theorem touches_iff {a : Access} {x : Element} :
    stamps.reads a x ∨ stamps.writes a x ↔ a.element = x := by
  cases a <;> simp [stamps, Access.Reads, Access.Writes, Access.element]

variable {z : Sizes} {p : Phase} {a : Access} {i j : Nat} {x : Element}

/-- The buffers that are written in a phase. -/
def Written : Phase → Buffer → Prop
  | loadQ _, b => b = Q_fa
  | init _, _ => False
  | loadKV _ _, b => b = K_fa ∨ b = V_fa
  | scores _ _, b => b = S_fa
  | softmax _ _, b => b = P_fa ∨ b = O_fa
  | transpose _ _, b => b = V_t
  | output _ _, b => b = O_fa
  | rescale _, b => b = O_fa
  | store _, _ => False

/-- Whose an element of such a buffer is in the phase. -/
def Owns (z : Sizes) : Phase → Element → Nat → Prop
  | loadQ _, _, i => i = z.num_cores
  | init _, _, _ => True
  | loadKV _ _, _, i => i = z.num_cores
  | scores _ _, x, i => i = x.2 / z.B_c % z.num_cores
  | softmax _ _, x, i => i < z.num_cores ∧
      x.2 / (if x.1 = P_fa then z.B_c else z.d) ∈ blockRows z.B_r z.num_cores i
  | transpose _ _, x, i => x.2 % z.B_c / (z.B_c / z.num_cores) = i
  | output _ _, x, i => i = x.2 / z.d % z.num_cores
  | rescale _, x, i => i < z.num_cores ∧ x.2 / z.d ∈ blockRows z.B_r z.num_cores i
  | store _, _, _ => True

theorem Owns.unique (written : Written p x.1) (mine : Owns z p x i) (yours : Owns z p x j) :
    i = j := by
  cases p with
  | init | store => exact absurd written id
  | loadQ | loadKV | scores | output => exact mine.trans yours.symm
  | transpose => exact mine.symm.trans yours
  | softmax | rescale => exact blockRows_unique mine.1 yours.1 mine.2 yours.2

theorem mem_gemmAccesses {core_num core_idx M N K lda ldb ldc : Nat} {readA readB writeC : Nat → Access}
    {readC : Nat → List Access} (core : core_idx < core_num) :
    a ∈ gemmAccesses core_num core_idx M N K lda ldb ldc readA readB readC writeC ↔
      ∃ m, (m < M ∧ m % core_num = core_idx) ∧ ∃ n < N,
        a ∈ readC (m * ldc + n) ∨ (∃ k < K, a = readA (m * lda + k) ∨ a = readB (n * ldb + k)) ∨
          a = writeC (m * ldc + n) := by
  simp only [gemmAccesses_eq, List.mem_flatMap, mem_dealtRows core, List.mem_range, mem_gemmEntry]

theorem mem_tileAccesses {x1_size x0_size : Nat} {access : Nat → Access} :
    a ∈ tileAccesses x1_size x0_size access ↔
      ∃ x1 < x1_size, ∃ x0 < x0_size, access (x1 * x0_size + x0) = a := by
  simp only [tileAccesses, List.mem_flatMap, List.mem_map, List.mem_range]

theorem mem_transposeAccesses {t_r t_c : Nat} :
    a ∈ transposeAccesses z t_r t_c i ↔ ∃ m < z.B_c / z.num_cores, ∃ n < z.d,
      a = read (V_fa, i * (z.B_c / z.num_cores) * z.d + (m * z.d + n)) (loadKV t_r t_c) ∨
        a = write (V_t, i * (z.B_c / z.num_cores) + (n * z.B_c + m)) (transpose t_r t_c) := by
  simp only [transposeAccesses, List.mem_flatMap, List.mem_range, List.mem_cons,
    List.not_mem_nil, or_false]

theorem mem_softmaxRow {t_r t_c r : Nat} : a ∈ softmaxRow z t_r t_c r ↔
    (∃ c < z.B_c, a = read (S_fa, r * z.B_c + c) (scores t_r t_c) ∨
      a = write (P_fa, r * z.B_c + c) (softmax t_r t_c) ∨
      a = read (P_fa, r * z.B_c + c) (softmax t_r t_c)) ∨
    (t_c ≠ 0 ∧ ∃ c < z.d, a = read (O_fa, r * z.d + c) (output t_r (t_c - 1)) ∨
      a = write (O_fa, r * z.d + c) (softmax t_r t_c)) := by
  unfold softmaxRow
  split <;> simp only [List.mem_append, List.mem_map, List.mem_flatMap, List.mem_range,
    List.mem_cons, List.not_mem_nil, or_false, *] <;> grind

/-- **An element of a written buffer is only touched by its owner.** -/
theorem owns_of_touch (agent : i < z.num_cores + 1) (member : a ∈ code z p i)
    (written : Written p a.element.1) : Owns z p a.element i := by
  unfold code at member
  split at member
  · next mover =>
      cases p <;> simp only [moverCode, List.not_mem_nil, List.mem_append, mem_tileAccesses] at member
      case loadQ => exact mover
      case loadKV => exact mover
      case store => exact absurd written id
  · next other =>
      have core : i < z.num_cores := by omega
      cases p with
      | loadQ | init | loadKV | store => simp [computeCode] at member
      | scores t_r t_c =>
        simp only [computeCode, mem_gemmAccesses core, List.not_mem_nil, false_or] at member
        obtain ⟨m, ⟨_, mine⟩, n, column, ⟨k, _, rfl | rfl⟩ | rfl⟩ := member
        · cases written
        · cases written
        · simp only [Owns, Access.element, element_row column, mine]
      | softmax t_r t_c =>
        simp only [computeCode, rowsAccesses_eq, List.mem_flatMap, mem_softmaxRow] at member
        obtain ⟨r, mine, ⟨c, column, rfl | rfl | rfl⟩ | ⟨_, c, column, rfl | rfl⟩⟩ := member
        · simp [Written, Access.element] at written
        all_goals
          refine ⟨core, ?_⟩
          simp only [Access.element, reduceCtorEq, if_true, if_false, element_row column]
          exact mine
      | transpose t_r t_c =>
        simp only [computeCode, mem_transposeAccesses] at member
        obtain ⟨m, row, n, _, rfl | rfl⟩ := member
        · cases written
        · have inside := transposed_lt core row
          change (i * (z.B_c / z.num_cores) + (n * z.B_c + m)) % z.B_c / (z.B_c / z.num_cores) = i
          rw [transposed_element, element_column inside, element_row row]
      | output t_r t_c =>
        simp only [computeCode, mem_gemmAccesses core] at member
        obtain ⟨m, ⟨_, mine⟩, n, column, readC | ⟨k, _, rfl | rfl⟩ | rfl⟩ := member
        · split at readC
          · cases readC
          · obtain rfl := List.mem_singleton.mp readC
            simp only [Owns, Access.element, element_row column, mine]
        · cases written
        · cases written
        · simp only [Owns, Access.element, element_row column, mine]
      | rescale t_r =>
        simp only [computeCode, rowsAccesses_eq, List.mem_flatMap, rescaleRow, List.mem_range,
          List.mem_cons, List.not_mem_nil, or_false] at member
        obtain ⟨r, mine, c, column, rfl | rfl⟩ := member
        all_goals
          refine ⟨core, ?_⟩
          simp only [Access.element, element_row column]
          exact mine

/-- A phase writes its buffers, and leaves its stamp. -/
theorem written_of_mem {q : Phase} (agent : i < z.num_cores + 1)
    (member : write x q ∈ code z p i) : q = p ∧ Written p x.1 := by
  unfold code at member
  split at member
  · cases p <;> simp only [moverCode, List.not_mem_nil, List.mem_append, mem_tileAccesses,
      write.injEq, reduceCtorEq, and_false, exists_false] at member
    case loadQ =>
      obtain ⟨_, _, _, _, rfl, rfl⟩ := member
      exact ⟨rfl, rfl⟩
    case loadKV =>
      rcases member with ⟨_, _, _, _, rfl, rfl⟩ | ⟨_, _, _, _, rfl, rfl⟩
      · exact ⟨rfl, .inl rfl⟩
      · exact ⟨rfl, .inr rfl⟩
  · next other =>
      have core : i < z.num_cores := by omega
      cases p <;> simp only [computeCode, mem_gemmAccesses core, rowsAccesses_eq, List.mem_flatMap,
        List.not_mem_nil, mem_softmaxRow, mem_transposeAccesses, rescaleRow, List.mem_range,
        List.mem_cons, or_false, false_or, write.injEq, reduceCtorEq] at member
      case scores => grind [Written]
      case softmax => grind [Written]
      case transpose => grind [Written]
      case output => grind [Written]
      case rescale => grind [Written]

theorem writes_iff : stamps.writes a x ↔ ∃ q, a = write x q := by
  cases a with
  | read => simp [stamps, Access.Writes]
  | write y q =>
    constructor
    · rintro rfl
      exact ⟨q, rfl⟩
    · rintro ⟨q, same⟩
      exact congrArg Access.element same

/-- **The phases are free of races.** -/
theorem raceFree : (flashattention_2_fp32 z).RaceFree stamps := by
  intro p _ i agent j agent' apart a member b member' x writes
  obtain ⟨q, rfl⟩ := writes_iff.mp writes
  have written := (written_of_mem agent member).2
  refine not_or.mp fun touches => apart ?_
  obtain rfl := touches_iff.mp touches
  exact Owns.unique written (owns_of_touch (a := write b.element q) agent member written)
    (owns_of_touch agent' member' written)

end Races

/-! ## What the phases leave -/

section Effects

open Buffer Access Phase

variable {z : Sizes} {p : Phase} {x : Element} {m : Element → Option Phase} {i : Nat}

abbrev phase (z : Sizes) (p : Phase) : (Element → Option Phase) → Element → Option Phase :=
  (flashattention_2_fp32 z).phase stamps p

theorem after_written {as : List Access} (stamped : ∀ y q, write y q ∈ as → q = p)
    (member : write x p ∈ as) : after Access.run as m x = some p := by
  induction as generalizing m with
  | nil => simp at member
  | cons a as ih =>
    have rest : ∀ y q, write y q ∈ as → q = p := fun y q there =>
      stamped y q (List.mem_cons_of_mem a there)
    by_cases later : write x p ∈ as
    · exact ih rest later
    · obtain rfl : write x p = a := by simpa [later] using member
      have untouched : ∀ b ∈ as, ¬stamps.writes b x := by
        intro b there writes
        obtain ⟨q, rfl⟩ := writes_iff.mp writes
        rw [rest x q there] at there
        exact later there
      exact (after_frame untouched).trans (Function.update_self _ _ _)

/-- What is written in a phase carries its stamp. -/
theorem phase_written (agent : i < z.num_cores + 1) (member : write x p ∈ code z p i) :
    phase z p m x = some p := by
  have marked : ∀ j < z.num_cores + 1, ∀ m : Element → Option Phase, m x = some p →
      after Access.run (code z p j) m x = some p := by
    intro j agent m was
    by_cases mine : write x p ∈ code z p j
    · exact after_written (fun y q there => (written_of_mem agent there).1) mine
    · refine (after_frame (S := stamps) fun b there writes => ?_).trans was
      obtain ⟨q, rfl⟩ := writes_iff.mp writes
      rw [(written_of_mem agent there).1] at there
      exact mine there
  have progress : i < z.num_cores + 1 → phase z p m x = some p := by
    refine Loops.loop_invariant (fun c (m : Element → Option Phase) => i < c → m x = some p)
      (fun none => absurd none (Nat.not_lt_zero i)) ?_
    intro c small m so_far below
    rcases Nat.lt_succ_iff_lt_or_eq.mp below with past | rfl
    · exact marked c small m (so_far past)
    · exact after_written (fun y q there => (written_of_mem small there).1) member
  exact progress agent

/-- Other buffers keep theirs. -/
theorem phase_kept (kept : ¬Written p x.1) : phase z p m x = m x := by
  refine (flashattention_2_fp32 z).phase_frame m fun j agent a member writes => kept ?_
  obtain ⟨q, rfl⟩ := writes_iff.mp writes
  exact (written_of_mem agent member).2

/-- A whole tile carries a stamp. -/
def Tile (m : Element → Option Phase) (b : Buffer) (rows columns : Nat) (p : Phase) : Prop :=
  ∀ r < rows, ∀ c < columns, m (b, r * columns + c) = some p

theorem Tile.kept {b : Buffer} {rows columns : Nat} {q : Phase} (tile : Tile m b rows columns q)
    (kept : ¬Written p b) : Tile (phase z p m) b rows columns q := fun r row c column =>
  (phase_kept kept).trans (tile r row c column)

variable {t_r t_c : Nat}

theorem loadQ_leaves : Tile (phase z (loadQ t_r) m) Q_fa z.B_r z.d (loadQ t_r) := by
  intro r row c column
  refine phase_written (i := z.num_cores) (Nat.lt_succ_self _) ?_
  rw [code, if_pos rfl, moverCode, mem_tileAccesses]
  exact ⟨r, row, c, column, rfl⟩

theorem loadKV_leaves {b : Buffer} (either : b = K_fa ∨ b = V_fa) :
    Tile (phase z (loadKV t_r t_c) m) b z.B_c z.d (loadKV t_r t_c) := by
  intro r row c column
  refine phase_written (i := z.num_cores) (Nat.lt_succ_self _) ?_
  rw [code, if_pos rfl]
  refine List.mem_append.mpr ?_
  rcases either with rfl | rfl
  · exact .inl (mem_tileAccesses.mpr ⟨r, row, c, column, rfl⟩)
  · exact .inr (mem_tileAccesses.mpr ⟨r, row, c, column, rfl⟩)

theorem mem_code_of_compute {a : Access} (core : i < z.num_cores)
    (member : a ∈ computeCode z i p) : a ∈ code z p i := by
  rw [code, if_neg core.ne]
  exact member

section

variable (some_core : 0 < z.num_cores)

include some_core

theorem scores_leaves : Tile (phase z (scores t_r t_c) m) S_fa z.B_r z.B_c (scores t_r t_c) := by
  intro r row c column
  have core := Nat.mod_lt r some_core
  refine phase_written (Nat.lt_succ_of_lt core) (mem_code_of_compute core ?_)
  rw [computeCode, mem_gemmAccesses core]
  exact ⟨r, ⟨row, rfl⟩, c, column, .inr (.inr rfl)⟩

theorem output_leaves : Tile (phase z (output t_r t_c) m) O_fa z.B_r z.d (output t_r t_c) := by
  intro r row c column
  have core := Nat.mod_lt r some_core
  refine phase_written (Nat.lt_succ_of_lt core) (mem_code_of_compute core ?_)
  rw [computeCode, mem_gemmAccesses core]
  exact ⟨r, ⟨row, rfl⟩, c, column, .inr (.inr rfl)⟩

theorem softmax_leaves : Tile (phase z (softmax t_r t_c) m) P_fa z.B_r z.B_c (softmax t_r t_c) := by
  intro r row c column
  obtain ⟨i, core, mine⟩ := exists_blockRows some_core row
  refine phase_written (Nat.lt_succ_of_lt core) (mem_code_of_compute core ?_)
  rw [computeCode, rowsAccesses_eq]
  exact List.mem_flatMap.mpr ⟨r, mine, mem_softmaxRow.mpr (.inl ⟨c, column, .inr (.inl rfl)⟩)⟩

theorem softmax_rescales (later : t_c ≠ 0) :
    Tile (phase z (softmax t_r t_c) m) O_fa z.B_r z.d (softmax t_r t_c) := by
  intro r row c column
  obtain ⟨i, core, mine⟩ := exists_blockRows some_core row
  refine phase_written (Nat.lt_succ_of_lt core) (mem_code_of_compute core ?_)
  rw [computeCode, rowsAccesses_eq]
  exact List.mem_flatMap.mpr ⟨r, mine, mem_softmaxRow.mpr (.inr ⟨later, c, column, .inr rfl⟩)⟩

theorem rescale_leaves : Tile (phase z (rescale t_r) m) O_fa z.B_r z.d (rescale t_r) := by
  intro r row c column
  obtain ⟨i, core, mine⟩ := exists_blockRows some_core row
  refine phase_written (Nat.lt_succ_of_lt core) (mem_code_of_compute core ?_)
  rw [computeCode, rowsAccesses_eq]
  refine List.mem_flatMap.mpr ⟨r, mine, List.mem_flatMap.mpr ⟨c, List.mem_range.mpr column, ?_⟩⟩
  exact List.mem_cons_of_mem _ List.mem_cons_self

end

/-- With the cores dividing the rows of `V`, the transpose covers them. -/
theorem transpose_leaves (covers : z.num_cores ∣ z.B_c) :
    Tile (phase z (transpose t_r t_c) m) V_t z.d z.B_c (transpose t_r t_c) := by
  intro c column r row
  obtain ⟨frac, split⟩ := covers
  have some_core : 0 < z.num_cores := by
    rcases Nat.eq_zero_or_pos z.num_cores with none | some_core
    · rw [split, none, Nat.zero_mul] at row
      exact absurd row (Nat.not_lt_zero r)
    · exact some_core
  have frac_M : z.B_c / z.num_cores = frac := by
    rw [split, Nat.mul_div_cancel_left frac some_core]
  have some_row : 0 < frac := by
    rcases Nat.eq_zero_or_pos frac with none | some_row
    · rw [split, none, Nat.mul_zero] at row
      exact absurd row (Nat.not_lt_zero r)
    · exact some_row
  have core : r / frac < z.num_cores := by
    rw [Nat.div_lt_iff_lt_mul some_row]
    rwa [← split]
  refine phase_written (Nat.lt_succ_of_lt core) (mem_code_of_compute core ?_)
  refine mem_transposeAccesses.mpr ⟨r % frac, ?_, c, column, .inr ?_⟩
  · rw [frac_M]
    exact Nat.mod_lt r some_row
  · have whole : r / frac * frac + r % frac = r := by
      rw [Nat.mul_comm]
      exact Nat.div_add_mod r frac
    rw [frac_M, transposed_element, whole]

end Effects

/-! ## Each phase reads finished values -/

section Finished

open Buffer Access Phase

variable {z : Sizes} {p : Phase} {m : Element → Option Phase} {t_r t_c i r : Nat}

/-- Every read of every core in the phase. -/
def AllFinished (z : Sizes) (p : Phase) (m : Element → Option Phase) : Prop :=
  ∀ i < z.num_cores + 1, Holds Access.run Finished (code z p i) m

/-- What a list of accesses leaves alone. -/
theorem after_kept {as : List Access} {x : Element} (kept : ∀ q, write x q ∉ as) :
    after Access.run as m x = m x :=
  after_frame (S := stamps) fun b there writes => by
    obtain ⟨q, rfl⟩ := writes_iff.mp writes
    exact kept q there

/-- Reads of what the accesses leave alone. -/
theorem holds_kept {as : List Access}
    (reads : ∀ y q, read y q ∈ as → m y = some q ∧ ∀ q', write y q' ∉ as) :
    Holds Access.run Finished as m := by
  refine holds_of_inv (fun m' => ∀ y q, read y q ∈ as → m' y = some q)
    (fun y q there => (reads y q there).1) fun a there m' so_far => ?_
  cases a with
  | read y q => exact ⟨so_far y q there, so_far⟩
  | write y q' =>
    refine ⟨trivial, fun y' q there' => ?_⟩
    refine (Function.update_of_ne ?_ _ _).trans (so_far y' q there')
    rintro rfl
    exact (reads y' q there').2 q' there

/-- Reads change nothing. -/
theorem holds_reads {as : List Access} (reads : ∀ a ∈ as, ∃ y q, a = read y q ∧ m y = some q) :
    Holds Access.run Finished as m ∧ after Access.run as m = m := by
  induction as with
  | nil => exact ⟨trivial, rfl⟩
  | cons a as ih =>
    obtain ⟨y, q, rfl, here⟩ := reads a List.mem_cons_self
    obtain ⟨holds, same⟩ := ih fun b member => reads b (List.mem_cons_of_mem _ member)
    exact ⟨⟨here, holds⟩, same⟩

/-- A phase that only reads buffers it does not write. -/
theorem allFinished_kept (reads : ∀ i < z.num_cores + 1, ∀ y q, read y q ∈ code z p i →
    m y = some q ∧ ¬Written p y.1) : AllFinished z p m := by
  refine fun i agent => holds_kept fun y q there => ?_
  obtain ⟨value, kept⟩ := reads i agent y q there
  exact ⟨value, fun q' written => kept (written_of_mem agent written).2⟩

theorem scores_finished
    (queries : Tile m Q_fa z.B_r z.d (loadQ t_r))
    (keys : Tile m K_fa z.B_c z.d (loadKV t_r t_c)) :
    AllFinished z (scores t_r t_c) m := by
  refine allFinished_kept fun i agent y q there => ?_
  unfold code at there
  split at there
  · cases there
  · next other =>
      rw [computeCode, mem_gemmAccesses (by omega)] at there
      obtain ⟨r, ⟨row, _⟩, c, column, none | ⟨k, inside, same | same⟩ | same⟩ := there
      · cases none
      · cases same
        exact ⟨queries r row k inside, nofun⟩
      · cases same
        exact ⟨keys c column k inside, nofun⟩
      · cases same

theorem transpose_finished (values : Tile m V_fa z.B_c z.d (loadKV t_r t_c)) :
    AllFinished z (transpose t_r t_c) m := by
  refine allFinished_kept fun i agent y q there => ?_
  unfold code at there
  split at there
  · cases there
  · next other =>
      rw [computeCode, mem_transposeAccesses] at there
      obtain ⟨r, row, c, column, same | same⟩ := there
      · cases same
        refine ⟨?_, nofun⟩
        rw [← Nat.add_assoc, ← Nat.add_mul]
        exact values _ (transposed_lt (by omega) row) c column
      · cases same

theorem store_finished (ready : Tile m O_fa z.B_r z.d (rescale t_r)) :
    AllFinished z (store t_r) m := by
  refine allFinished_kept fun i agent y q there => ?_
  unfold code at there
  split at there
  · rw [moverCode, mem_tileAccesses] at there
    obtain ⟨r, row, c, column, same⟩ := there
    cases same
    exact ⟨ready r row c column, id⟩
  · cases there

theorem load_finished (loads : (∃ t_r, p = loadQ t_r) ∨ (∃ t_r, p = init t_r) ∨
    ∃ t_r t_c, p = loadKV t_r t_c) : AllFinished z p m := by
  refine allFinished_kept fun i agent y q there => ?_
  unfold code at there
  obtain ⟨t_r, rfl⟩ | ⟨t_r, rfl⟩ | ⟨t_r, t_c, rfl⟩ := loads <;> split at there
  · rw [moverCode, mem_tileAccesses] at there
    obtain ⟨_, _, _, _, same⟩ := there
    cases same
  · cases there
  · cases there
  · cases there
  · rcases List.mem_append.mp there with there | there
    · obtain ⟨_, _, _, _, same⟩ := mem_tileAccesses.mp there
      cases same
    · obtain ⟨_, _, _, _, same⟩ := mem_tileAccesses.mp there
      cases same
  · cases there

/-! ### Phases that read and write `O` -/

/-- One column of a row of `O`, read and written. -/
theorem updates_finished {d r : Nat} {was is : Phase}
    (ready : ∀ c < d, m (O_fa, r * d + c) = some was) :
    Holds Access.run Finished ((List.range d).flatMap fun c =>
      [read (O_fa, r * d + c) was, write (O_fa, r * d + c) is]) m := by
  refine holds_visit (fun _ => True) (fun c m => m (O_fa, r * d + c) = some was) List.nodup_range
    trivial (fun c member => ready c (List.mem_range.mp member)) fun c _ m' _ here => ?_
  refine ⟨⟨here, trivial, trivial⟩, trivial, fun c' other there => ?_⟩
  refine (Function.update_of_ne ?_ _ _).trans there
  intro same
  exact other (Nat.add_left_cancel (congrArg Prod.snd same))

/-- The rows of a core, each by accesses that write `O` in this row only. -/
theorem rows_finished {rows : List Nat} {f : Nat → List Access} (Ready : Option Phase → Prop)
    (Inv : (Element → Option Phase) → Prop) (apart : rows.Nodup) (inv : Inv m)
    (ready : ∀ r ∈ rows, ∀ c < z.d, Ready (m (O_fa, r * z.d + c)))
    (row : ∀ r ∈ rows, ∀ m, Inv m → (∀ c < z.d, Ready (m (O_fa, r * z.d + c))) →
      Holds Access.run Finished (f r) m ∧ Inv (after Access.run (f r) m))
    (own : ∀ r ∈ rows, ∀ x q, write (O_fa, x) q ∈ f r → x / z.d = r) :
    Holds Access.run Finished (rows.flatMap f) m := by
  refine holds_visit Inv (fun r m => ∀ c < z.d, Ready (m (O_fa, r * z.d + c))) apart inv ready
    fun r member m' inv here => ?_
  obtain ⟨holds, inv⟩ := row r member m' inv here
  refine ⟨holds, inv, fun r' other there c column => ?_⟩
  rw [after_kept fun q written => other ?_]
  · exact there c column
  · rw [← own r member _ q written, element_row column]

theorem rescale_finished
    (ready : Tile m O_fa z.B_r z.d (output t_r (z.S / z.B_c - 1))) : AllFinished z (rescale t_r) m := by
  intro i agent
  unfold code
  split
  · trivial
  · next other =>
      have core : i < z.num_cores := by omega
      rw [computeCode, rowsAccesses_eq]
      refine rows_finished (· = some (output t_r (z.S / z.B_c - 1))) (fun _ => True)
        nodup_blockRows trivial (fun r mine => ready r (mem_blockRows_lt core mine))
        (fun r _ m' _ here => ⟨updates_finished here, trivial⟩) fun r _ x q written => ?_
      simp only [rescaleRow, List.mem_flatMap, List.mem_range, List.mem_cons, List.not_mem_nil,
        or_false, reduceCtorEq, false_or, write.injEq, Prod.mk.injEq, true_and] at written
      obtain ⟨c, column, rfl, _⟩ := written
      exact element_row column

theorem output_finished
    (weights : Tile m P_fa z.B_r z.B_c (softmax t_r t_c))
    (values : Tile m V_t z.d z.B_c (transpose t_r t_c))
    (ready : t_c ≠ 0 → Tile m O_fa z.B_r z.d (softmax t_r t_c)) :
    AllFinished z (output t_r t_c) m := by
  intro i agent
  unfold code
  split
  · trivial
  · next other =>
      have core : i < z.num_cores := by omega
      rw [computeCode, gemmAccesses_eq]
      generalize entry : gemmEntry z.B_c z.B_c z.B_c z.d (fun x => read (P_fa, x) (softmax t_r t_c))
        (fun x => read (V_t, x) (transpose t_r t_c))
        (fun x => if t_c = 0 then [] else [read (O_fa, x) (softmax t_r t_c)])
        (fun x => write (O_fa, x) (output t_r t_c)) = entryAccesses
      have writes : ∀ r c x q, write x q ∈ entryAccesses r c → x = (O_fa, r * z.d + c) := by
        intro r c x q written
        rw [← entry, mem_gemmEntry] at written
        rcases written with read | ⟨k, _, same | same⟩ | same
        · split at read <;> simp at read
        · cases same
        · cases same
        · cases same
          rfl
      refine rows_finished (fun v => t_c ≠ 0 → v = some (softmax t_r t_c))
        (fun m => (∀ r < z.B_r, ∀ k < z.B_c, m (P_fa, r * z.B_c + k) = some (softmax t_r t_c)) ∧
          ∀ c < z.d, ∀ k < z.B_c, m (V_t, c * z.B_c + k) = some (transpose t_r t_c))
        (nodup_dealtRows core) ⟨weights, values⟩
        (fun r mine c column later => ready later r ((mem_dealtRows core).mp mine).1 c column)
        (fun r mine m' inv here => ?_) fun r mine x q written => ?_
      · have row := ((mem_dealtRows core).mp mine).1
        constructor
        · refine holds_visit (fun m => (∀ k < z.B_c, m (P_fa, r * z.B_c + k) =
              some (softmax t_r t_c)) ∧
            ∀ c < z.d, ∀ k < z.B_c, m (V_t, c * z.B_c + k) = some (transpose t_r t_c))
            (fun c m => t_c ≠ 0 → c < z.d → m (O_fa, r * z.d + c) = some (softmax t_r t_c))
            List.nodup_range ⟨inv.1 r row, inv.2⟩
            (fun c _ later column => here c column later)
            fun c column m inv ready => ⟨?_, ⟨fun k inside => ?_, fun c' column' k inside => ?_⟩,
              fun c' other there later column' => ?_⟩
          · have column := List.mem_range.mp column
            rw [← entry, gemmEntry]
            refine holds_append.mpr ⟨(holds_reads fun a member => ?_).1, trivial, trivial⟩
            rcases List.mem_append.mp member with first | rest
            · split at first
              · cases first
              · next later =>
                  exact ⟨_, _, List.mem_singleton.mp first, ready later column⟩
            · obtain ⟨k, inside, rest⟩ := List.mem_flatMap.mp rest
              have inside := List.mem_range.mp inside
              rcases List.mem_pair.mp rest with rfl | rfl
              · exact ⟨_, _, rfl, inv.1 k inside⟩
              · exact ⟨_, _, rfl, inv.2 c column k inside⟩
          · rw [after_kept fun q written => by cases writes _ _ _ _ written]
            exact inv.1 k inside
          · rw [after_kept fun q written => by cases writes _ _ _ _ written]
            exact inv.2 c' column' k inside
          · rw [after_kept fun q written => other ?_]
            · exact there later column'
            · exact Nat.add_left_cancel (congrArg Prod.snd (writes _ _ _ _ written))
        · refine ⟨fun r' row' k inside => ?_, fun c column k inside => ?_⟩
          · rw [after_kept fun q written => ?_]
            · exact inv.1 r' row' k inside
            · obtain ⟨_, _, there⟩ := List.mem_flatMap.mp written
              cases writes _ _ _ _ there
          · rw [after_kept fun q written => ?_]
            · exact inv.2 c column k inside
            · obtain ⟨_, _, there⟩ := List.mem_flatMap.mp written
              cases writes _ _ _ _ there
      · obtain ⟨c, column, there⟩ := List.mem_flatMap.mp written
        cases writes _ _ _ _ there
        exact element_row (List.mem_range.mp column)

theorem softmaxRow_finished
    (scored : ∀ c < z.B_c, m (S_fa, r * z.B_c + c) = some (scores t_r t_c))
    (ready : t_c ≠ 0 → ∀ c < z.d, m (O_fa, r * z.d + c) = some (output t_r (t_c - 1))) :
    Holds Access.run Finished (softmaxRow z t_r t_c r) m := by
  have reads : ∀ a ∈ (List.range z.B_c).map fun c => read (S_fa, r * z.B_c + c) (scores t_r t_c),
      ∃ y q, a = read y q ∧ m y = some q := by
    intro a member
    obtain ⟨c, column, rfl⟩ := List.mem_map.mp member
    exact ⟨_, _, rfl, scored c (List.mem_range.mp column)⟩
  have first := holds_reads reads
  unfold softmaxRow
  refine holds_append.mpr ⟨holds_append.mpr ⟨first.1, ?_⟩, ?_⟩
  · rw [first.2]
    refine holds_visit (fun m => ∀ c < z.B_c, m (S_fa, r * z.B_c + c) = some (scores t_r t_c))
      (fun _ _ => True) List.nodup_range scored (fun _ _ => trivial)
      fun c column m scored _ => ?_
    refine ⟨⟨scored c (List.mem_range.mp column), trivial, Function.update_self _ _ _, trivial⟩,
      fun c' column' => ?_, fun _ _ _ => trivial⟩
    refine (after_kept fun q written => ?_).trans (scored c' column')
    simp at written
  · split
    · next later =>
        refine updates_finished fun c column => (after_kept fun q written => ?_).trans
          (ready later c column)
        simp at written
    · trivial

theorem softmax_finished
    (scored : Tile m S_fa z.B_r z.B_c (scores t_r t_c))
    (ready : t_c ≠ 0 → Tile m O_fa z.B_r z.d (output t_r (t_c - 1))) :
    AllFinished z (softmax t_r t_c) m := by
  intro i agent
  unfold code
  split
  · trivial
  · next other =>
      have core : i < z.num_cores := by omega
      rw [computeCode, rowsAccesses_eq]
      refine rows_finished (fun v => t_c ≠ 0 → v = some (output t_r (t_c - 1)))
        (fun m => ∀ r < z.B_r, ∀ c < z.B_c, m (S_fa, r * z.B_c + c) = some (scores t_r t_c))
        nodup_blockRows scored
        (fun r mine c column later => ready later r (mem_blockRows_lt core mine) c column)
        (fun r mine m scored ready => ⟨softmaxRow_finished (scored r (mem_blockRows_lt core mine))
          fun later c column => ready c column later, fun r' row c column => ?_⟩)
        fun r _ x q written => ?_
      · rw [after_kept fun q written => ?_]
        · exact scored r' row c column
        · simp [mem_softmaxRow] at written
      · rcases mem_softmaxRow.mp written with ⟨c, _, same | same | same⟩ | ⟨_, c, column, same | same⟩
        · cases same
        · cases same
        · cases same
        · cases same
        · cases same
          exact element_row column

end Finished

/-! ## The loops -/

section Loops

open Buffer Access Phase

variable {z : Sizes} {m : Element → Option Phase} {t_r t_c : Nat}

/-- Before turn `t_c` of the inner loop. -/
structure ColumnReady (z : Sizes) (t_r t_c : Nat) (m : Element → Option Phase) : Prop where
  queries : Tile m Q_fa z.B_r z.d (loadQ t_r)
  output : t_c ≠ 0 → Tile m O_fa z.B_r z.d (output t_r (t_c - 1))

section

variable (some_core : 0 < z.num_cores) (covers : z.num_cores ∣ z.B_c)

include some_core covers

/-- **One column block.** -/
theorem column_holds (ready : ColumnReady z t_r t_c m) :
    Holds (phase z) (AllFinished z) (columnPhases t_r t_c) m ∧
      ColumnReady z t_r (t_c + 1) (after (phase z) (columnPhases t_r t_c) m) := by
  -- a tile that is written keeps its stamp through the phases that write other buffers
  have values : Tile (phase z (loadKV t_r t_c) m) V_fa z.B_c z.d (loadKV t_r t_c) :=
    loadKV_leaves (.inr rfl)
  refine ⟨⟨?_, ?_, ?_, ?_, ?_, trivial⟩, ⟨?_, fun _ => ?_⟩⟩
  · exact load_finished (.inr (.inr ⟨t_r, t_c, rfl⟩))
  · exact scores_finished (ready.queries.kept (by simp [Written])) (loadKV_leaves (.inl rfl))
  · exact softmax_finished (scores_leaves some_core) fun later =>
      ((ready.output later).kept (by simp [Written])).kept (by simp [Written])
  · exact transpose_finished ((values.kept (by simp [Written])).kept (by simp [Written]))
  · exact output_finished ((softmax_leaves some_core).kept (by simp [Written])) (transpose_leaves covers)
      fun later => (softmax_rescales some_core later).kept (by simp [Written])
  · exact ((((ready.queries.kept (by simp [Written])).kept (by simp [Written])).kept (by simp [Written])).kept (by simp [Written])).kept (by simp [Written])
  · exact output_leaves some_core

/-- **One row block.** -/
theorem row_holds
    (some_column : 0 < z.S / z.B_c) : Holds (phase z) (AllFinished z) (rowPhases z t_r) m := by
  have first : ColumnReady z t_r 0 (after (phase z) [loadQ t_r, init t_r] m) :=
    ⟨loadQ_leaves.kept (by simp [Written]), fun none => absurd rfl none⟩
  obtain ⟨columns, last⟩ : Holds (phase z) (AllFinished z)
      ((List.range (z.S / z.B_c)).flatMap (columnPhases t_r)) _ ∧ _ :=
    holds_range (ColumnReady z t_r) first fun t_c _ m ready => column_holds some_core covers ready
  refine holds_append.mpr ⟨holds_append.mpr ⟨⟨?_, ?_, trivial⟩, columns⟩, ?_, ?_, trivial⟩
  · exact load_finished (.inl ⟨t_r, rfl⟩)
  · exact load_finished (.inr (.inl ⟨t_r, rfl⟩))
  · rw [after_append]
    exact rescale_finished (last.output some_column.ne')
  · exact store_finished (rescale_leaves some_core)

theorem schedule_holds (some_column : 0 < z.S / z.B_c) :
    Holds (phase z) (AllFinished z) (flashattention_2_fp32 z).schedule m :=
  (holds_range (fun _ _ => True) trivial fun _ _ _ _ =>
    ⟨row_holds some_core covers some_column, trivial⟩).1

end

/-- The next access of a core. -/
def nextAccess (z : Sizes) (s : State Element (Option Phase)) (i : Nat) : Option Access :=
  ((flashattention_2_fp32 z).codeAt (s.place i).1 i)[(s.place i).2]?

/-- After the transpose a core waits for all others, as a barrier there would have it. -/
def transposeFirst : Phase → Nat → Nat → Bool := fun p _ _ => IsTranspose p

theorem guarded : (flashattention_2_fp32 z).Guarded stamps transposeFirst := by
  intro i _ j _ _ k k' earlier conflict
  obtain ⟨_, member, _⟩ := conflict
  obtain ⟨p, here, _⟩ := Program.mem_codeAt member
  refine .wait le_rfl earlier here ?_
  simp only [flashattention_2_fp32, transposeFirst]
  cases IsTranspose p <;> simp

end Loops

section Runs

open Buffer Access Phase

/-- One row block and one column block of two rows of `V`, on two cores. -/
def twoRows : Sizes := ⟨1, 2, 1, 1, 2, 2⟩

/-- Core 0 multiplies while core 1 has not transposed its row. -/
def early : List Nat :=
  [2] ++ [0, 1, 2] ++ [0, 1, 2] ++ List.replicate 4 2 ++ [0, 1, 2] ++ List.replicate 6 0 ++
    [0, 1, 2] ++ List.replicate 8 1 ++ [0, 1, 2] ++ [0, 0] ++ [0] ++ [0, 0, 0]

/-- All the cores in turn, phase by phase, up to the same read. -/
def inTurn : List Nat :=
  [2] ++ [0, 1, 2] ++ [0, 1, 2] ++ List.replicate 4 2 ++ [0, 1, 2] ++ List.replicate 6 0 ++
    [0, 1, 2] ++ List.replicate 8 1 ++ [0, 1, 2] ++ [0, 0] ++ [1, 1] ++ [0] ++ [0, 0, 0]

end Runs

end SnitchCluster.Kernels.FlashAttentionPhases
