/-
# Kernels.PiEstimationThreads -- batches on their way through two threads

Batches alternate between two sets of buffers, whose indices are toggled stage by stage
(`indices_eq`).  Between fences the threads touch no common buffer (`buffers_apart`), so a run ends
as if the threads of an iteration ran one after the other; then the iterations keep the place of
every batch (`Progress`), and the pipelined loop counts what the sequential one counts
(`optimized_returns_baseline`).
-/
import Mathlib.Data.Nat.Bits
import SnitchCluster.Kernels.PiEstimation

namespace SnitchCluster.Kernels.PiEstimation

open Theory Theory.Loops Theory.Supersteps

/-! ## The iterations -/

section Iterations

variable {prngs : Prngs} {hit : BitVec 32 → BitVec 32 → Bool} {core_idx BATCH_SIZE n : Nat}
  {n_iterations : BitVec 32} {m : Mem}

/-- With two iterations more than batches, all but the last two generate. -/
theorem generates_iff (count : n_iterations.toNat = n + 2) (i : Nat) :
    generates n_iterations i = decide (i < n) := by
  have two : (2 : BitVec 32).toNat = 2 := rfl
  have bound := n_iterations.isLt
  have last : (n_iterations - 2).toNat = n := by
    rw [BitVec.toNat_sub, two]
    omega
  rw [generates, last]

theorem evaluates_iff (count : n_iterations.toNat = n + 2) (i : Nat) :
    evaluates n_iterations i = decide (0 < i ∧ i < n + 1) := by
  have one : (1 : BitVec 32).toNat = 1 := rfl
  have bound := n_iterations.isLt
  have last : (n_iterations - 1).toNat = n + 1 := by
    rw [BitVec.toNat_sub, one]
    omega
  rw [evaluates, last]

theorem bodd_toggle {a b : Nat} {p : Prop} [Decidable p] (yes : p → b = a + 1) (no : ¬p → b = a) :
    (a.bodd ^^ decide p) = b.bodd := by
  by_cases holds : p
  · simp [holds, yes holds]
  · simp [holds, no holds]

/-- **The indices count the iterations of their stages.** -/
theorem indices_eq (count : n_iterations.toNat = n + 2) (i : Nat) : indices n_iterations i =
    ⟨(min (i - 1) n).bodd, (min i n).bodd, (i - 2).bodd⟩ := by
  induction i with
  | zero => simp [indices]
  | succ i ih =>
    rw [indices, ih, Indices.next, evaluates_iff count, generates_iff count, accumulates]
    congr 1
    · exact bodd_toggle (by omega) (by omega)
    · exact bodd_toggle (by omega) (by omega)
    · exact bodd_toggle (by omega) (by omega)

/-- **The integer thread** fills the set of the next batch, and counts from the set of the last but
one. -/
theorem int_thread_eq (count : n_iterations.toNat = n + 2) (i : Nat) :
    int_thread prngs core_idx BATCH_SIZE n_iterations i =
      (if i < n then generate prngs BATCH_SIZE (rng_all core_idx BATCH_SIZE .x (i + 1).bodd)
        (rng_all core_idx BATCH_SIZE .y (i + 1).bodd) else []) ++
      if 1 < i then
        accumulate BATCH_SIZE (rng_all core_idx BATCH_SIZE .z (i + 1).bodd) else [] := by
  unfold int_thread
  simp only [indices_eq count, generates_iff count, accumulates, decide_eq_true_eq]
  congr 1
  · split
    · next inside => rw [Nat.min_eq_left (Nat.succ_le_of_lt inside)]
    · rfl
  · split
    · next later =>
        obtain ⟨t, rfl⟩ : ∃ t, i = t + 1 := ⟨i - 1, by omega⟩
        simp
    · rfl

/-- **The FP thread** works on the set that was filled before. -/
theorem fp_thread_eq (count : n_iterations.toNat = n + 2) (i : Nat) :
    fp_thread hit core_idx BATCH_SIZE n_iterations i =
      if 0 < i ∧ i < n + 1 then
        evaluate hit BATCH_SIZE (rng_all core_idx BATCH_SIZE .x i.bodd)
          (rng_all core_idx BATCH_SIZE .y i.bodd) (rng_all core_idx BATCH_SIZE .z i.bodd)
      else [] := by
  unfold fp_thread
  simp only [indices_eq count, evaluates_iff count, decide_eq_true_eq]
  split
  · next inside => rw [Nat.add_sub_cancel, Nat.min_eq_left (Nat.le_of_lt_succ inside.2)]
  · rfl

/-! ### What runs side by side -/

/-- The buffer of a word. -/
def Loc.buffer : Loc → Option (Rng × Bool)
  | .rng buffer idx _ => some (buffer, idx)
  | _ => none

/-- No buffer is touched on both sides. -/
def BuffersApart (as bs : List Asm) : Prop :=
  ∀ a ∈ as, ∀ b ∈ bs, ∀ x y, a.reads x ∨ a.writes x → b.reads y ∨ b.writes y →
    x.buffer.isSome → x.buffer ≠ y.buffer

section

variable (count : n_iterations.toNat = n + 2)

include count

theorem int_thread_within (eight : 8 ∣ BATCH_SIZE) (i : Nat) :
    Statement.Within (fun x => x = .Ap ∨ x = .Cp ∨ x.Flags (i + 1).bodd)
      (fun x => x.Generator ∨ x.Counter ∨ x.Numbers (i + 1).bodd)
      (int_thread prngs core_idx BATCH_SIZE n_iterations i) := by
  rw [int_thread_eq count]
  refine Semantics.within_append.mpr ⟨?_, ?_⟩
  · split
    · refine generate_within.mono (fun x => ?_) fun x => ?_
      · rintro (rfl | rfl)
        · exact .inl (.inl rfl)
        · exact .inl (.inr (.inl rfl))
      · rintro (register | number)
        · exact .inl register
        · exact .inr (.inr number)
    · exact Semantics.within_nil
  · split
    · exact (accumulate_within eight).mono (fun x flag => .inl (.inr (.inr flag)))
        fun x register => .inr (.inl register)
    · exact Semantics.within_nil

theorem fp_thread_within (some : 0 < BATCH_SIZE)
    (eight : 8 ∣ BATCH_SIZE) (small : BATCH_SIZE < 2 ^ 32) (i : Nat) :
    Statement.Within (Loc.Numbers i.bodd) (fun x => x.Fp ∨ x.Flags i.bodd)
      (fp_thread hit core_idx BATCH_SIZE n_iterations i) := by
  rw [fp_thread_eq count]
  split
  · exact evaluate_within some (by omega) small
  · exact Semantics.within_nil

/-- The integer thread keeps to one set of buffers, and off the registers of the other. -/
theorem int_thread_touches (eight : 8 ∣ BATCH_SIZE) {i : Nat}
    {a : Asm} (member : a ∈ int_thread prngs core_idx BATCH_SIZE n_iterations i) {x : Loc}
    (touched : a.reads x ∨ a.writes x) : ¬x.Fp ∧ ∀ p, x.buffer = some p → p.2 = (i + 1).bodd := by
  obtain ⟨reads, writes⟩ := int_thread_within count eight i a member
  have within : (x = .Ap ∨ x = .Cp ∨ x.Flags (i + 1).bodd) ∨
      x.Generator ∨ x.Counter ∨ x.Numbers (i + 1).bodd :=
    touched.elim (reads x) fun written => .inr (writes x written)
  cases x with
  | rng buffer idx e =>
    cases buffer <;> simpa [Loc.Fp, Loc.buffer, Loc.Flags, Loc.Generator, Loc.Counter,
      Loc.Numbers] using within
  | _ => simp [Loc.Fp, Loc.buffer, Loc.Flags, Loc.Generator, Loc.Counter, Loc.Numbers] at within ⊢

theorem fp_thread_touches (some : 0 < BATCH_SIZE)
    (eight : 8 ∣ BATCH_SIZE) (small : BATCH_SIZE < 2 ^ 32) {i : Nat} {a : Asm}
    (member : a ∈ fp_thread hit core_idx BATCH_SIZE n_iterations i) {x : Loc}
    (touched : a.reads x ∨ a.writes x) :
    (x.Fp ∨ x.buffer.isSome) ∧ ∀ p, x.buffer = .some p → p.2 = i.bodd := by
  obtain ⟨reads, writes⟩ := fp_thread_within count some eight small i a member
  have within : x.Numbers i.bodd ∨ x.Fp ∨ x.Flags i.bodd :=
    touched.elim (reads x) fun written => .inr (writes x written)
  cases x with
  | rng buffer idx e =>
    cases buffer <;> simpa [Loc.Fp, Loc.buffer, Loc.Flags, Loc.Numbers] using within
  | fa r => simp [Loc.Fp, Loc.buffer]
  | _ => simp [Loc.Fp, Loc.Flags, Loc.Numbers] at within

end

variable (prngs hit core_idx) in
/-- **The threads of an iteration touch no common buffer.** -/
theorem buffers_apart (count : n_iterations.toNat = n + 2) (some : 0 < BATCH_SIZE)
    (eight : 8 ∣ BATCH_SIZE) (small : BATCH_SIZE < 2 ^ 32) (i : Nat) :
    BuffersApart (int_thread prngs core_idx BATCH_SIZE n_iterations i)
      (fp_thread hit core_idx BATCH_SIZE n_iterations i) := by
  intro a integer b fp x y touched touched' buffer same
  obtain ⟨p, here⟩ := Option.isSome_iff_exists.mp buffer
  have mine := (int_thread_touches count eight integer touched).2 p here
  have theirs := (fp_thread_touches count some eight small fp touched').2 p (same ▸ here)
  rw [mine, Nat.bodd_succ] at theirs
  exact Bool.not_ne_self _ theirs

variable (prngs hit core_idx) in
theorem threads_independent (count : n_iterations.toNat = n + 2) (some : 0 < BATCH_SIZE)
    (eight : 8 ∣ BATCH_SIZE) (small : BATCH_SIZE < 2 ^ 32) (i : Nat) :
    Statement.semantics.Independent (int_thread prngs core_idx BATCH_SIZE n_iterations i)
      (fp_thread hit core_idx BATCH_SIZE n_iterations i) := by
  have apart : ∀ a ∈ int_thread prngs core_idx BATCH_SIZE n_iterations i,
      ∀ b ∈ fp_thread hit core_idx BATCH_SIZE n_iterations i, ∀ x,
        a.reads x ∨ a.writes x → ¬(b.reads x ∨ b.writes x) := by
    intro a integer b fp x touched touched'
    rcases (fp_thread_touches count some eight small fp touched').1 with register | buffer
    · exact (int_thread_touches count eight integer touched).1 register
    · exact buffers_apart prngs hit core_idx count some eight small i a integer b fp x x touched
        touched' buffer rfl
  constructor
  · intro a integer b fp x written
    exact not_or.mp (apart a integer b fp x (.inr written))
  · intro a integer b fp x written
    have free := fun touched => apart a integer b fp x touched (.inr written)
    exact not_or.mp free

/-! ### Where the batches are -/

/-- Before iteration `i`: the generators are after the batches so far, the last of them lies in its
set of buffers, the flags of the one before in its set, and those before that are counted. -/
structure Progress (prngs : Prngs) (hit : BitVec 32 → BitVec 32 → Bool)
    (core_idx BATCH_SIZE n i : Nat) (m : Mem) : Prop where
  generator : prngs.At (min i n * (BATCH_SIZE / 4)) m
  generated : ∀ t < n, t + 1 = i → ∀ e < BATCH_SIZE,
    m (rng_all core_idx BATCH_SIZE .x (t + 1).bodd e) = (prngs.pair (t * BATCH_SIZE + e)).1 ∧
      m (rng_all core_idx BATCH_SIZE .y (t + 1).bodd e) = (prngs.pair (t * BATCH_SIZE + e)).2
  evaluated : ∀ t < n, t + 2 = i → ∀ e < BATCH_SIZE,
    m (rng_all core_idx BATCH_SIZE .z (t + 1).bodd e) =
      flag (hit (prngs.pair (t * BATCH_SIZE + e)).1 (prngs.pair (t * BATCH_SIZE + e)).2)
  counted : total m = hits prngs hit ((i - 2) * BATCH_SIZE)

variable {i : Nat}

/-- After the integer thread of iteration `i`. -/
structure Halfway (prngs : Prngs) (hit : BitVec 32 → BitVec 32 → Bool)
    (core_idx BATCH_SIZE n i : Nat) (m m' : Mem) : Prop where
  generator : prngs.At (min (i + 1) n * (BATCH_SIZE / 4)) m'
  generated : i < n → ∀ e < BATCH_SIZE,
    m' (rng_all core_idx BATCH_SIZE .x (i + 1).bodd e) = (prngs.pair (i * BATCH_SIZE + e)).1 ∧
      m' (rng_all core_idx BATCH_SIZE .y (i + 1).bodd e) = (prngs.pair (i * BATCH_SIZE + e)).2
  counted : total m' = hits prngs hit ((i - 1) * BATCH_SIZE)
  kept : ∀ x : Loc, x.Numbers i.bodd → m' x = m x

/-- **The integer thread generates the next batch** as long as there is one. -/
theorem Progress.generate (before : Progress prngs hit core_idx BATCH_SIZE n i m)
    (some : 0 < BATCH_SIZE) (eight : 8 ∣ BATCH_SIZE) (small : BATCH_SIZE < 2 ^ 32) {as : List Asm}
    (code : as = if i < n then PiEstimation.generate prngs BATCH_SIZE
      (rng_all core_idx BATCH_SIZE .x (i + 1).bodd)
      (rng_all core_idx BATCH_SIZE .y (i + 1).bodd) else []) :
    prngs.At (min (i + 1) n * (BATCH_SIZE / 4)) (after Statement.run as m) ∧
      (i < n → ∀ e < BATCH_SIZE,
        after Statement.run as m (rng_all core_idx BATCH_SIZE .x (i + 1).bodd e) =
            (prngs.pair (i * BATCH_SIZE + e)).1 ∧
          after Statement.run as m (rng_all core_idx BATCH_SIZE .y (i + 1).bodd e) =
            (prngs.pair (i * BATCH_SIZE + e)).2) ∧
      ∀ x : Loc, ¬x.Generator → ¬x.Numbers (i + 1).bodd → after Statement.run as m x = m x := by
  have generator := before.generator
  subst code
  split
  · next inside =>
      have quarters : 4 * (i * (BATCH_SIZE / 4)) = i * BATCH_SIZE := by
        rw [Nat.mul_left_comm, Nat.mul_div_cancel' (Dvd.dvd.trans (by decide) eight)]
      rw [Nat.min_eq_left inside.le] at generator
      rw [Nat.min_eq_left (Nat.succ_le_of_lt inside), Nat.succ_mul]
      have values := generate_value core_idx (i + 1).bodd generator some
        (Dvd.dvd.trans (by decide) eight) small
      rw [quarters] at values
      exact ⟨values.1, fun _ => values.2, fun x register number =>
        generate_within.frame (not_or.mpr ⟨register, number⟩)⟩
  · next outside =>
      rw [Nat.min_eq_right (by omega)] at generator ⊢
      exact ⟨generator, fun inside => absurd inside outside, fun _ _ _ => rfl⟩

/-- **The integer thread generates one batch and counts another.** -/
theorem Progress.int_thread (before : Progress prngs hit core_idx BATCH_SIZE n i m)
    (count : n_iterations.toNat = n + 2) (inside : i < n + 2) (some : 0 < BATCH_SIZE)
    (eight : 8 ∣ BATCH_SIZE) (small : BATCH_SIZE < 2 ^ 32) :
    Halfway prngs hit core_idx BATCH_SIZE n i m
      (after Statement.run (int_thread prngs core_idx BATCH_SIZE n_iterations i) m) := by
  have apart : ∀ x : Loc, x.Numbers i.bodd → after Statement.run
      (PiEstimation.int_thread prngs core_idx BATCH_SIZE n_iterations i) m x = m x := by
    intro x number
    refine (int_thread_within count eight i).frame ?_
    cases x with
    | rng buffer idx e => cases buffer <;> simp_all [Loc.Generator, Loc.Counter, Loc.Numbers]
    | _ => exact number.elim
  rw [int_thread_eq count, after_append] at apart ⊢
  obtain ⟨generator, generated, frame⟩ := before.generate some eight small rfl
  generalize after Statement.run (if i < n then PiEstimation.generate prngs BATCH_SIZE
      (rng_all core_idx BATCH_SIZE .x (i + 1).bodd)
      (rng_all core_idx BATCH_SIZE .y (i + 1).bodd) else []) m = m' at *
  have sum : total m' = total m := Finset.sum_congr rfl fun q _ => frame _ id id
  by_cases later : 1 < i
  · rw [if_pos later] at apart ⊢
    refine ⟨generator.congr fun x register => ?_, fun inside e small => ?_, ?_, apart⟩
    · refine (accumulate_within eight).frame ?_
      cases x <;> first | exact id | exact register.elim
    · rw [(accumulate_within eight).frame id, (accumulate_within eight).frame id]
      exact generated inside e small
    · obtain ⟨t, rfl⟩ : ∃ t, i = t + 2 := ⟨i - 2, by omega⟩
      have flags : ∀ e ∈ Finset.range BATCH_SIZE,
          m' (rng_all core_idx BATCH_SIZE .z (t + 2 + 1).bodd e) =
            flag (hit (prngs.pair (t * BATCH_SIZE + e)).1
              (prngs.pair (t * BATCH_SIZE + e)).2) := by
        intro e small
        have same : (t + 2 + 1).bodd = (t + 1).bodd := by simp
        rw [frame _ id id, same]
        exact before.evaluated t (by omega) rfl e (Finset.mem_range.mp small)
      rw [accumulate_value eight, sum, before.counted, Finset.sum_congr rfl flags, hits, hits,
        Nat.add_sub_cancel, show t + 2 - 1 = t + 1 from rfl, Nat.succ_mul, Finset.sum_range_add]
  · rw [if_neg later] at apart ⊢
    have none : i - 1 = i - 2 := by omega
    exact ⟨generator, generated, by rw [after_nil, sum, before.counted, none], apart⟩

/-- **The FP thread evaluates the batch that was generated before.** -/
theorem Halfway.fp_thread {m' : Mem} (half : Halfway prngs hit core_idx BATCH_SIZE n i m m')
    (before : Progress prngs hit core_idx BATCH_SIZE n i m)
    (count : n_iterations.toNat = n + 2) (some : 0 < BATCH_SIZE)
    (eight : 8 ∣ BATCH_SIZE) (small : BATCH_SIZE < 2 ^ 32) :
    Progress prngs hit core_idx BATCH_SIZE n (i + 1)
      (after Statement.run (fp_thread hit core_idx BATCH_SIZE n_iterations i) m') := by
  have frame : ∀ x : Loc, ¬x.Fp → ¬x.Flags i.bodd → after Statement.run
      (PiEstimation.fp_thread hit core_idx BATCH_SIZE n_iterations i) m' x = m' x :=
    fun x register flag =>
      (fp_thread_within count some eight small i).frame (not_or.mpr ⟨register, flag⟩)
  constructor
  · refine half.generator.congr fun x register => frame x ?_ ?_ <;>
      cases x <;> first | exact id | exact register.elim
  · rintro t inside ⟨⟩ e element
    rw [frame _ id id, frame _ id id]
    exact half.generated inside e element
  · rintro t inside ⟨⟩ e element
    obtain ⟨x, y⟩ := before.generated t inside rfl e element
    rw [fp_thread_eq count, if_pos ⟨Nat.succ_pos t, Nat.succ_lt_succ inside⟩,
      evaluate_value some (Dvd.dvd.trans (by decide) eight) small element,
      half.kept (rng_all core_idx BATCH_SIZE .x (t + 1).bodd e) rfl,
      half.kept (rng_all core_idx BATCH_SIZE .y (t + 1).bodd e) rfl, x, y]
  · have sum : total (after Statement.run
        (PiEstimation.fp_thread hit core_idx BATCH_SIZE n_iterations i) m') = total m' :=
      Finset.sum_congr rfl fun q _ => frame _ id id
    rw [sum, half.counted]
    rfl

/-! ### Both variants -/

theorem BuffersApart.symm {as bs : List Asm} (apart : BuffersApart as bs) : BuffersApart bs as :=
  fun b inner a outer y x touched touched' buffer same =>
    apart a outer b inner x y touched' touched (same ▸ buffer) same.symm

/-- Runs of the threads are finite and do not get stuck, in none of them do two threads that are at
work touch the same buffer up to their fences, and each returns the value. -/
structure Returns (prog : Program Nat Asm) (returned : Mem → BitVec 32) (m : Mem)
    (value : BitVec 32) : Prop where
  bounded : ∀ schedule s,
    (prog.machine Statement.semantics).run (Program.start m) schedule = some s →
      schedule.length ≤ prog.size
  through : ∀ s, (prog.machine Statement.semantics).Reachable (Program.start m) s →
    (∀ i, prog.step Statement.semantics i s = none) →
      ∀ i < prog.agents, prog.schedule.length ≤ (s.place i).1
  exclusive : ∀ s, (prog.machine Statement.semantics).Reachable (Program.start m) s →
    ∀ i < prog.agents, ∀ j < prog.agents, i ≠ j →
      ∀ p ∈ prog.schedule[(s.place i).1]?, ∀ a ∈ (prog.code p i)[(s.place i).2]?,
      ∀ q ∈ prog.schedule[(s.place j).1]?, ∀ b ∈ (prog.code q j)[(s.place j).2]?,
        BuffersApart (prog.code p i) (prog.code q j)
  value : ∀ s, (prog.machine Statement.semantics).Reachable (Program.start m) s →
    (∀ i < prog.agents, prog.schedule.length ≤ (s.place i).1) → returned s.memory = value

section Optimized

variable {N_CORES : Nat} {n_samples : BitVec 32}

variable (n_samples) in
/-- The iterations of `n_samples` samples. -/
theorem n_iterations_eq (some : 0 < BATCH_SIZE) (eight : 8 ∣ BATCH_SIZE)
    (small : BATCH_SIZE < 2 ^ 32) :
    (n_samples / BitVec.ofNat 32 BATCH_SIZE + 2).toNat = n_samples.toNat / BATCH_SIZE + 2 := by
  have batch : (BitVec.ofNat 32 BATCH_SIZE).toNat = BATCH_SIZE := by
    rw [BitVec.toNat_ofNat, Nat.mod_eq_of_lt small]
  have two : (2 : BitVec 32).toNat = 2 := rfl
  have bound : n_samples.toNat / BATCH_SIZE ≤ n_samples.toNat / 8 :=
    Nat.div_le_div_left (Nat.le_of_dvd some eight) (by decide)
  have whole := n_samples.isLt
  rw [BitVec.toNat_add, BitVec.toNat_udiv, batch, two, Nat.mod_eq_of_lt (by omega)]

variable (prngs hit core_idx N_CORES n_samples) in
/-- **No thread touches what the other writes.** -/
theorem raceFree (some : 0 < BATCH_SIZE) (eight : 8 ∣ BATCH_SIZE) (small : BATCH_SIZE < 2 ^ 32) :
    (calculate_psum_optimized prngs hit core_idx N_CORES BATCH_SIZE n_samples).RaceFree
      Statement.semantics := by
  have count := n_iterations_eq n_samples some eight small
  intro p _ i agent j other different a outer b inner x written
  have apart := threads_independent prngs hit core_idx count some eight small p
  match i, j, different with
  | 0, j + 1, _ => exact apart.left a outer b inner x written
  | i + 1, 0, _ => exact apart.right b inner a outer x written
  | 0, 0, different => exact absurd rfl different
  | i + 1, j + 1, different =>
    have agent : i + 1 < 2 := agent
    have other : j + 1 < 2 := other
    omega

variable (prngs hit n_samples) in
theorem progress (working : core_idx < N_CORES) (some : 0 < BATCH_SIZE) (eight : 8 ∣ BATCH_SIZE)
    (small : BATCH_SIZE < 2 ^ 32) (m : Mem) :
    ∀ i ≤ n_samples.toNat / BATCH_SIZE + 2,
      Progress prngs hit core_idx BATCH_SIZE (n_samples.toNat / BATCH_SIZE) i
        ((calculate_psum_optimized prngs hit core_idx N_CORES BATCH_SIZE n_samples).reference
          Statement.semantics (prngs.load m) i) := by
  have count := n_iterations_eq n_samples some eight small
  intro i
  induction i with
  | zero =>
    intro _
    obtain ⟨start, -, zero⟩ := load_at prngs m
    refine ⟨?_, ?_, ?_, ?_⟩
    · simpa [Program.reference] using start
    · rintro t _ ⟨⟩
    · rintro t _ ⟨⟩
    · simpa [Program.reference, hits] using zero
  | succ i ih =>
    intro inside
    have before := ih (Nat.le_of_succ_le inside)
    have phase : (calculate_psum_optimized prngs hit core_idx N_CORES BATCH_SIZE
        n_samples).schedule[i]? = .some i := by
      simp only [calculate_psum_optimized, if_pos working, count]
      rw [List.getElem?_range (by omega)]
    rw [Program.reference_succ phase]
    have half := before.int_thread count inside some eight small
    exact half.fp_thread before count some eight small

/-- **The pipelined loop returns what the sequential one returns**, whatever the interleaving of its
threads and what registers and buffers hold before. -/
theorem optimized_returns_baseline (prngs : Prngs) (hit : BitVec 32 → BitVec 32 → Bool)
    (core_idx N_CORES BATCH_SIZE : Nat) (n_samples : BitVec 32) (m m' : Mem)
    (batch : 0 < BATCH_SIZE) (eight : 8 ∣ BATCH_SIZE) (samples : 0 < n_samples.toNat)
    (whole : BATCH_SIZE ∣ n_samples.toNat) :
    Returns (calculate_psum_optimized prngs hit core_idx N_CORES BATCH_SIZE n_samples)
      (psum core_idx N_CORES) (prngs.load m)
      (calculate_psum_baseline prngs hit core_idx N_CORES n_samples m') := by
  have small : BATCH_SIZE < 2 ^ 32 :=
    Nat.lt_of_le_of_lt (Nat.le_of_dvd samples whole) n_samples.isLt
  have count := n_iterations_eq n_samples batch eight small
  have free := raceFree prngs hit core_idx N_CORES n_samples batch eight small
  have all : (calculate_psum_optimized prngs hit core_idx N_CORES BATCH_SIZE n_samples).AllWait :=
    fun _ _ _ => rfl
  constructor
  · exact fun _ _ ran => Program.run_length ran
  · exact fun _ reached stuck => (Program.fits_of_reachable reached).through stuck
  · intro s reached i agent j other different p phase a action q phase' b action'
    have level := Program.same_phase all free reached agent other phase action phase' action'
    rw [level] at phase
    obtain rfl : q = p := Option.some.inj (phase'.symm.trans phase)
    have apart := buffers_apart prngs hit core_idx count batch eight small q
    match i, j, different with
    | 0, j + 1, _ => exact apart
    | i + 1, 0, _ => exact apart.symm
    | 0, 0, different => exact absurd rfl different
    | i + 1, j + 1, different =>
      have agent : i + 1 < 2 := agent
      have other : j + 1 < 2 := other
      omega
  · intro s reached ended
    by_cases working : core_idx < N_CORES
    · have length : (calculate_psum_optimized prngs hit core_idx N_CORES BATCH_SIZE
          n_samples).schedule.length = n_samples.toNat / BATCH_SIZE + 2 := by
        simp only [calculate_psum_optimized, if_pos working, count, List.length_range]
      have counted := (progress prngs hit n_samples working batch eight small m _ le_rfl).counted
      rw [Nat.add_sub_cancel, Nat.div_mul_cancel whole] at counted
      rw [baseline_hits working samples (Nat.dvd_trans (Nat.dvd_trans (by decide) eight) whole),
        all.memory_done free reached Nat.two_pos ended, length, ← counted, psum, if_pos working]
      simp [total, List.range_succ, Finset.sum_range_succ]
    · rw [psum, if_neg working, calculate_psum_baseline, if_neg working]

/-- Whether a point is in the quarter of the circle. -/
def circle (x y : BitVec 32) : Bool := x.toNat * x.toNat + y.toNat * y.toNat < 2 ^ 64

/-- Four batches of eight pairs, with the generators of the first core. -/
theorem optimized_returns_baseline_batches :
    Returns (calculate_psum_optimized (.lcg (Lcg.initNDefault 42 8 fun _ => Lcg.init 0 0 0)) circle
        0 1 8 32) (psum 0 1)
      (Prngs.load (fun _ => 7) (.lcg (Lcg.initNDefault 42 8 fun _ => Lcg.init 0 0 0)))
      (calculate_psum_baseline (.lcg (Lcg.initNDefault 42 8 fun _ => Lcg.init 0 0 0)) circle 0 1 32
        fun _ => 5) :=
  optimized_returns_baseline _ circle 0 1 8 32 _ _ (by decide) (by decide) (by decide) (by decide)

end Optimized

end Iterations

end SnitchCluster.Kernels.PiEstimation
