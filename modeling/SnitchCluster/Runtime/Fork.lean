/-
# Runtime.Fork -- the arguments of a parallel region

`__kmpc_fork_call` copies the microtask and its arguments to a buffer of twelve words that
`omp_init` has allocated, and dispatches `__microtask_wrapper`, which reads the buffer back and
calls the microtask from a switch with one case for each number of arguments.  The buffer has
room for eleven arguments, not twelve; the cases of eight to eleven arguments have no `break` and
run into the next; and the default case runs into the first if `snrt_exit` returns.  So a
fork passes its arguments once for up to seven (`forks_iff`).
-/
import Mathlib.Tactic.IntervalCases
import SnitchCluster.Runtime.EventUnit
import SnitchCluster.Runtime.MemoryMap

namespace SnitchCluster.Runtime.Fork

open Theory
open EventUnit (Call Region callsOf)
open MemoryMap (snrtAlignUp minChunkSize)

/-! ## A switch -/

section Switch

/-- A case of a switch, or its default: what it does, and whether a `break` ends it. -/
structure SwitchCase (β : Type) where
  label : Option (BitVec 32)
  body : List β
  breaks : Bool

variable {β : Type}

/-- From a case on, up to the next `break`. -/
def fallThrough : List (SwitchCase β) → List β
  | [] => []
  | c :: rest => c.body ++ if c.breaks then [] else fallThrough rest

/-- The cases from a label on. -/
def jump (label : Option (BitVec 32)) (cases : List (SwitchCase β)) : List (SwitchCase β) :=
  cases.dropWhile fun c => decide (c.label ≠ label)

def switch (v : BitVec 32) (cases : List (SwitchCase β)) : List β :=
  if cases.any fun c => decide (c.label = some v) then fallThrough (jump (some v) cases)
  else fallThrough (jump none cases)

end Switch

/-! ## The fork -/

/-- `KMP_FORK_MAX_NARGS`. -/
def kmpForkMaxNargs : BitVec 32 := 12

/-- The size of the block that `snrt_l1_alloc` returns for `kmpc_args`. -/
def blockSize : BitVec 32 := snrtAlignUp (4 * kmpForkMaxNargs) minChunkSize 0

/-- What a thread does for the fork: it calls the microtask, or ends the program. -/
inductive Event
  | call (fn gtid : BitVec 32) (args : List (BitVec 32))
  | exit (code : BitVec 32)
  deriving DecidableEq, Repr

/-- The memory, by the address of a word. -/
abbrev Memory := BitVec 32 → BitVec 32

/-- A store of a word. -/
abbrev Store := BitVec 32 × BitVec 32

def storeAll (mem : Memory) (stores : List Store) : Memory :=
  stores.foldl (fun mem s => Function.update mem s.1 s.2) mem

/-- What the code outside the two functions gives them: the block of the arguments, the address
of the wrapper, and whether `snrt_exit` returns to its caller. -/
structure Env where
  kmpcArgs : BitVec 32
  microtaskWrapper : BitVec 32
  exitReturns : Bool

/-- A call of `__kmpc_fork_call`; `va` is what `va_arg` yields in turn. -/
structure ForkCall where
  argc : BitVec 32
  microtask : BitVec 32
  va : Nat → BitVec 32
  numThreads : BitVec 32

section Code

variable (env : Env) (f : ForkCall)

/-- `&kmpc_args[i]`. -/
def Env.element (i : Nat) : BitVec 32 := env.kmpcArgs + 4 * BitVec.ofNat 32 i

/-- How often `for (int i = 1; i <= argc; ++i)` runs. -/
def ForkCall.nargs : Nat := f.argc.toInt.toNat

/-- The arguments given. -/
def ForkCall.args : List (BitVec 32) := (List.range f.nargs).map f.va

/-- The stores of `__kmpc_fork_call`. -/
def kmpcForkCall : List Store :=
  (env.element 0, f.microtask) ::
    (List.range f.nargs).map fun i => (env.element (i + 1), f.va i)

/-- What it hands to `parallelRegion`. -/
def region : Region where
  fn := env.microtaskWrapper
  data := env.kmpcArgs
  argc := f.argc
  numThreads := f.numThreads

/-- The cases of the wrapper's switch, as they stand there. -/
def wrapperCases (mem : Memory) (arg id : BitVec 32) : List (SwitchCase Event) :=
  let fn := mem arg
  let pArgv (k : Nat) := mem (arg + 4 + 4 * BitVec.ofNat 32 k)
  let calls (n : Nat) (breaks : Bool) : SwitchCase Event :=
    ⟨some (BitVec.ofNat 32 n), [.call fn id ((List.range n).map pArgv)], breaks⟩
  [ -- no `break`: this goes on with the next case if `snrt_exit` returns
    ⟨none, [.exit (-1)], !env.exitReturns⟩,
    calls 0 true, calls 1 true, calls 2 true, calls 3 true, calls 4 true, calls 5 true,
    calls 6 true, calls 7 true, calls 8 false, calls 9 false, calls 10 false, calls 11 false,
    calls 12 true ]

/-- `__microtask_wrapper`, run by thread `id`. -/
def microtaskWrapper (mem : Memory) (c : Call) (id : BitVec 32) : List Event :=
  switch c.argc (wrapperCases env mem c.data id)

/-- What thread `id` of the team does: the event unit has it call the wrapper as `callsOf`
says. -/
def thread (mem : Memory) (id : BitVec 32) : List Event :=
  (callsOf id.toNat [region env f]).flatMap fun c =>
    microtaskWrapper env (storeAll mem (kmpcForkCall env f)) c id

/-- The bytes of the block that `omp_init` allocates. -/
def Env.InBlock (a : BitVec 32) : Prop := (a - env.kmpcArgs).toNat + 4 ≤ blockSize.toNat

instance (a : BitVec 32) : Decidable (env.InBlock a) := inferInstanceAs (Decidable (_ ≤ _))

/-- The wrapper has a case for the number of arguments. -/
def Supported (argc : BitVec 32) : Prop := argc ≤ 12

/-- The fork writes to its block only, and the thread calls the microtask once with the
arguments given, or exits for their number. -/
structure Forks (mem : Memory) (id : BitVec 32) : Prop where
  inside : ∀ s ∈ kmpcForkCall env f, env.InBlock s.1
  passes : thread env f mem id = [.call f.microtask id f.args] ∨
    (¬Supported f.argc ∧ thread env f mem id = [.exit (-1)])

end Code

/-! ## The buffer -/

theorem storeAll_of_not_mem {stores : List Store} (mem : Memory) {a : BitVec 32}
    (clear : a ∉ stores.map Prod.fst) : storeAll mem stores a = mem a := by
  induction stores generalizing mem with
  | nil => rfl
  | cons first rest ih =>
    simp only [List.map_cons, List.mem_cons, not_or] at clear
    have later := ih (Function.update mem first.1 first.2) clear.2
    rw [Function.update_of_ne clear.1] at later
    exact later

/-- Of stores to different words, each is kept. -/
theorem storeAll_of_mem {stores : List Store} (mem : Memory) {s : Store}
    (different : (stores.map Prod.fst).Nodup) (member : s ∈ stores) :
    storeAll mem stores s.1 = s.2 := by
  induction stores generalizing mem with
  | nil => simp at member
  | cons first rest ih =>
    simp only [List.map_cons, List.nodup_cons] at different
    rcases List.mem_cons.mp member with rfl | later
    · have kept := storeAll_of_not_mem (Function.update mem s.1 s.2) different.1
      rw [Function.update_self] at kept
      exact kept
    · exact ih _ different.2 later

section Buffer

variable {env : Env} {f : ForkCall}

theorem blockSize_eq : blockSize.toNat = 48 := by decide

theorem element_sub (i : Nat) : (env.element i - env.kmpcArgs).toNat = 4 * i % 2 ^ 32 := by
  have plain : env.element i - env.kmpcArgs = 4 * BitVec.ofNat 32 i := by
    rw [Env.element, BitVec.add_comm, BitVec.add_sub_cancel]
  rw [plain]
  simp

/-- The element is in the block if it is one of the first twelve. -/
theorem inBlock_iff {i : Nat} (few : i ≤ 12) : env.InBlock (env.element i) ↔ i ≤ 11 := by
  rw [Env.InBlock, element_sub, blockSize_eq]
  omega

theorem kmpcForkCall_fst :
    (kmpcForkCall env f).map Prod.fst = (List.range (f.nargs + 1)).map env.element := by
  rw [List.range_succ_eq_map]
  simp [kmpcForkCall, Function.comp_def]

/-- The block has room for the microtask and eleven arguments. -/
theorem inside_iff : (∀ s ∈ kmpcForkCall env f, env.InBlock s.1) ↔ f.nargs ≤ 11 := by
  have elements : (∀ s ∈ kmpcForkCall env f, env.InBlock s.1) ↔
      ∀ i < f.nargs + 1, env.InBlock (env.element i) := by
    rw [← List.forall_mem_map (f := Prod.fst), kmpcForkCall_fst]
    simp
  rw [elements]
  constructor
  · intro all
    by_contra many
    have last := (inBlock_iff (Nat.le_refl 12)).mp (all 12 (by omega))
    omega
  · intro few i below
    exact (inBlock_iff (by omega)).mpr (by omega)

theorem stores_nodup (few : f.nargs ≤ 11) : ((kmpcForkCall env f).map Prod.fst).Nodup := by
  rw [kmpcForkCall_fst]
  refine List.Nodup.map_on ?_ List.nodup_range
  intro i small j small' same
  have offsets := congrArg (fun a => (a - env.kmpcArgs).toNat) same
  simp only [element_sub, List.mem_range] at offsets small small'
  omega

/-- The wrapper finds the microtask in the first word. -/
theorem read_microtask (few : f.nargs ≤ 11) (mem : Memory) :
    storeAll mem (kmpcForkCall env f) env.kmpcArgs = f.microtask := by
  have first : (env.element 0, f.microtask) ∈ kmpcForkCall env f := by simp [kmpcForkCall]
  have kept := storeAll_of_mem mem (stores_nodup few) first
  simpa [Env.element] using kept

/-- And the arguments in the next. -/
theorem read_arg (few : f.nargs ≤ 11) (mem : Memory) {k : Nat} (given : k < f.nargs) :
    storeAll mem (kmpcForkCall env f) (env.kmpcArgs + 4 + 4 * BitVec.ofNat 32 k) = f.va k := by
  have place : env.kmpcArgs + 4 + 4 * BitVec.ofNat 32 k = env.element (k + 1) := by
    have one : (4 : BitVec 32) * BitVec.ofNat 32 1 = 4 := rfl
    rw [Env.element, BitVec.ofNat_add, BitVec.mul_add, one, BitVec.add_assoc, BitVec.add_comm 4]
  have later : (env.element (k + 1), f.va k) ∈ kmpcForkCall env f := by
    simp only [kmpcForkCall, List.mem_cons, List.mem_map, List.mem_range]
    exact Or.inr ⟨k, given, rfl⟩
  rw [place]
  exact storeAll_of_mem mem (stores_nodup few) later

end Buffer

/-! ## The wrapper -/

section Wrapper

variable {env : Env} {f : ForkCall}

/-- A thread of the team runs the wrapper once. -/
theorem thread_eq {id : BitVec 32} (team : id < f.numThreads) (mem : Memory) :
    thread env f mem id = microtaskWrapper env (storeAll mem (kmpcForkCall env f))
      (region env f).toCall id := by
  have member : id.toNat < f.numThreads.toNat := team
  simp [thread, callsOf, region, member]

variable (env) (mem : Memory) (id : BitVec 32) {c : Call}

/-- The call that the case for `n` arguments makes. -/
def callOf (mem : Memory) (arg id : BitVec 32) (n : Nat) : Event :=
  .call (mem arg) id ((List.range n).map fun k => mem (arg + 4 + 4 * BitVec.ofNat 32 k))

/-- Up to seven arguments there is one call. -/
theorem wrapper_few (few : c.argc ≤ 7) :
    microtaskWrapper env mem c id = [callOf mem c.data id c.argc.toNat] := by
  obtain ⟨fn, data, argc⟩ := c
  have small : argc.toNat ≤ 7 := few
  obtain ⟨n, same⟩ : ∃ n, argc.toNat = n := ⟨_, rfl⟩
  rw [same] at small
  have value : argc = BitVec.ofNat 32 n := by simp [← same]
  subst value
  interval_cases n <;> rfl

/-- From eight to eleven there are several. -/
theorem wrapper_several (low : 8 ≤ c.argc) (high : c.argc ≤ 11) :
    2 ≤ (microtaskWrapper env mem c id).length := by
  obtain ⟨fn, data, argc⟩ := c
  have above : 8 ≤ argc.toNat := low
  have below : argc.toNat ≤ 11 := high
  obtain ⟨n, same⟩ : ∃ n, argc.toNat = n := ⟨_, rfl⟩
  rw [same] at above below
  have value : argc = BitVec.ofNat 32 n := by simp [← same]
  subst value
  interval_cases n <;> exact Nat.le_of_ble_eq_true rfl

/-- For other numbers the wrapper exits, and goes on where that returns. -/
theorem wrapper_default (many : ¬Supported c.argc) : microtaskWrapper env mem c id =
    .exit (-1) :: if env.exitReturns then [callOf mem c.data id 0] else [] := by
  have none : ∀ n ≤ 12, ¬BitVec.ofNat 32 n = c.argc := by
    intro n small same
    apply many
    rw [Supported, BitVec.le_def, ← same, BitVec.toNat_ofNat]
    exact Nat.le_trans (Nat.mod_le ..) small
  have missed : ((wrapperCases env mem c.data id).any fun k => decide (k.label = some c.argc)) =
      false := by
    simp [wrapperCases, none]
  rw [microtaskWrapper, switch, missed]
  obtain ⟨kmpcArgs, wrapper, returns⟩ := env
  cases returns <;> rfl

end Wrapper

/-! ## Every fork -/

/-- The arguments that the loop copies: as many as `argc` says, if it is not negative. -/
theorem nargs_eq (f : ForkCall) :
    f.nargs = if f.argc.toNat < 2 ^ 31 then f.argc.toNat else 0 := by
  rw [ForkCall.nargs, BitVec.toInt_eq_toNat_cond]
  split <;> split <;> omega

/-- Below twelve, all arguments are copied. -/
theorem nargs_of_le {f : ForkCall} (few : f.argc ≤ 11) : f.nargs = f.argc.toNat := by
  have small : f.argc.toNat ≤ 11 := few
  rw [nargs_eq, if_pos (by omega)]

/-- The case for the number of arguments passes what was given. -/
theorem callOf_args {env : Env} {f : ForkCall} (few : f.argc ≤ 11) (mem : Memory)
    (id : BitVec 32) :
    callOf (storeAll mem (kmpcForkCall env f)) env.kmpcArgs id f.argc.toNat =
      .call f.microtask id f.args := by
  have copied := nargs_of_le few
  have room : f.nargs ≤ 11 := copied ▸ few
  have arguments : (List.range f.argc.toNat).map (fun k =>
      storeAll mem (kmpcForkCall env f) (env.kmpcArgs + 4 + 4 * BitVec.ofNat 32 k)) = f.args := by
    rw [ForkCall.args, copied]
    apply List.map_congr_left
    intro k given
    exact read_arg room mem (copied ▸ List.mem_range.mp given)
  rw [callOf, read_microtask room, arguments]

/-- **A fork stays in its block, and a thread of its team calls the microtask once with the
arguments given, exactly for up to seven arguments**, or for a negative number where
`snrt_exit` does not return. -/
theorem forks_iff (env : Env) (f : ForkCall) (mem : Memory) (id : BitVec 32)
    (team : id < f.numThreads) :
    Forks env f mem id ↔ f.argc ≤ 7 ∨ (2 ^ 31 ≤ f.argc.toNat ∧ env.exitReturns = false) := by
  have nargs := nargs_eq f
  have ran := @thread_eq env f id team mem
  constructor
  · intro ⟨inside, passes⟩
    rw [inside_iff] at inside
    rw [ran] at passes
    by_cases few : f.argc ≤ 7
    · exact Or.inl few
    have more : 7 < f.argc.toNat := by simpa [BitVec.le_def] using few
    by_cases several : f.argc ≤ 11
    · have calls := wrapper_several env (storeAll mem (kmpcForkCall env f)) id
        (c := (region env f).toCall) (BitVec.le_def.mpr more) several
      rcases passes with once | ⟨-, exits⟩
      · simp [once] at calls
      · simp [exits] at calls
    · have beyond : 11 < f.argc.toNat := by simpa [BitVec.le_def] using several
      have negative : 2 ^ 31 ≤ f.argc.toNat := by
        by_contra positive
        rw [if_pos (by omega)] at nargs
        omega
      have many : ¬Supported (region env f).argc := by
        intro known
        have : f.argc.toNat ≤ 12 := known
        omega
      rw [wrapper_default _ _ _ many] at passes
      refine Or.inr ⟨negative, ?_⟩
      cases returns : env.exitReturns with
      | false => rfl
      | true => simp [returns] at passes
  · rintro (few | ⟨negative, stops⟩)
    · have below : f.argc ≤ 11 := BitVec.le_trans few (by decide)
      refine ⟨inside_iff.mpr (nargs_of_le below ▸ below), Or.inl ?_⟩
      rw [ran, wrapper_few _ _ _ few]
      exact congrArg (fun e => [e]) (callOf_args below mem id)
    · have none : f.nargs = 0 := by rw [nargs, if_neg (by omega)]
      have many : ¬Supported (region env f).argc := by
        intro known
        have : f.argc.toNat ≤ 12 := known
        omega
      refine ⟨inside_iff.mpr (by omega), Or.inr ⟨many, ?_⟩⟩
      rw [ran, wrapper_default _ _ _ many, stops]
      rfl

/-! ### Nine and twelve arguments -/

/-- A block in the scratchpad. -/
def block : Env where
  kmpcArgs := 0x10000000
  microtaskWrapper := 0x80000100
  exitReturns := false

/-- A fork of two threads. -/
def forkOf (argc : BitVec 32) : ForkCall where
  argc
  microtask := 0x80000200
  va k := 0x10001000 + BitVec.ofNat 32 k
  numThreads := 2

/-- Three arguments are passed once. -/
theorem forks_iff_three : Forks block (forkOf 3) (fun _ => 0) 1 :=
  (forks_iff block (forkOf 3) (fun _ => 0) 1 (by decide)).mpr (Or.inl (by decide))

/-- **With nine arguments the microtask is called four times, and with twelve the last is stored
behind the block.** -/
theorem nine_repeated :
    (¬Forks block (forkOf 9) (fun _ => 0) 1 ∧
      (thread block (forkOf 9) (fun _ => 0) 1).length = 4) ∧
    (¬Forks block (forkOf 12) (fun _ => 0) 1 ∧
      (block.element 12, (forkOf 12).va 11) ∈ kmpcForkCall block (forkOf 12) ∧
      ¬block.InBlock (block.element 12)) := by
  have nine := forks_iff block (forkOf 9) (fun _ => 0) 1 (by decide)
  have twelve := forks_iff block (forkOf 12) (fun _ => 0) 1 (by decide)
  refine ⟨⟨fun forks => ?_, by decide⟩, fun forks => ?_, by decide, by decide⟩
  · exact absurd (nine.mp forks) (by decide)
  · exact absurd (twelve.mp forks) (by decide)

end SnitchCluster.Runtime.Fork
