/-
# Config.SsrRegisters -- register indices of the streamers of a core

The generator goes through the streamers once: an entry without an index, or with the index that a
counter has reached, takes the number of the counter.  The counter never looks at the indices that
later entries ask for, nor back at those it has passed.  So the indices are distinct exactly if the
entries stand in the order in which counting reaches them (`Orderly`, `registers_distinct_iff`);
the roles of an intersection follow the final indices in any case (`parse_isect_ssr_spec`).
-/
import Mathlib.Data.List.Sort
import Mathlib.Data.Nat.Log

namespace SnitchCluster.Config

/-! ## The generator -/

/-- A streamer, as far as its index and its roles depend on it. -/
structure Ssr where
  reg_idx : Option Nat
  indirection : Bool
  pointer_width : Option Nat
  index_width : Option Nat
  isect_master : Bool := false
  isect_master_idx : Bool := false
  isect_slave : Bool := false
  deriving DecidableEq

structure CoreCfg where
  xssr : Bool
  ssrs : List Ssr
  ssr_intersection : Bool
  ssr_intersection_triple : Nat × Nat × Nat
  num_ssrs : Nat := 0

def parse_isect_ssr (ssr : Ssr) (core : CoreCfg) : Except String Ssr := do
  let ssr := { ssr with isect_master := false, isect_master_idx := false, isect_slave := false }
  if core.ssr_intersection then
    let (master0, master1, slave) := core.ssr_intersection_triple
    let ssr ← if ssr.reg_idx = some master0 ∨ ssr.reg_idx = some master1 then
        if ¬ssr.indirection then
          .error "An intersection master SSR must be indirection-capable"
        else
          pure { ssr with isect_master := true, isect_master_idx := ssr.reg_idx = some master1 }
      else pure ssr
    if ssr.reg_idx = some slave then
      return { ssr with indirection := true, isect_slave := true }
    else return ssr
  else return ssr

/-- The loop over the streamers of a core, from an entry on. -/
def assign (core : CoreCfg) : List Ssr → Nat → Except String (List Ssr)
  | [], _ => return []
  | ssr :: ssrs, next_free_reg => do
    if ssr.reg_idx = none ∨ ssr.reg_idx = some next_free_reg then
      let ssr ← parse_isect_ssr { ssr with reg_idx := some next_free_reg } core
      return ssr :: (← assign core ssrs (next_free_reg + 1))
    else
      let ssr ← parse_isect_ssr ssr core
      return ssr :: (← assign core ssrs next_free_reg)

/-- The defaults of an entry; the subtraction in the source is a statement of its own. -/
def setDefaults (tcdm_size : Nat) (ssr : Ssr) : Ssr :=
  let pointer_width := ssr.pointer_width.getD (10 + Nat.clog 2 tcdm_size)
  { ssr with pointer_width := pointer_width, index_width := ssr.index_width.getD pointer_width }

/-- The key of the sort: all indices are assigned by then. -/
def Ssr.key (ssr : Ssr) : Nat := ssr.reg_idx.getD 0

/-- Consistent if there are no streamers. -/
def CoreCfg.consistent (core : CoreCfg) : CoreCfg :=
  if ¬core.xssr ∨ core.ssrs = [] then { core with xssr := false, ssrs := [] } else core

/-- One core in `parse_cores`. -/
def parse_core (tcdm_size : Nat) (core : CoreCfg) : Except String CoreCfg := do
  let core := core.consistent
  let ssrs ← assign core core.ssrs 0
  let ssrs := (ssrs.map (setDefaults tcdm_size)).mergeSort fun x y => x.key ≤ y.key
  return { core with ssrs := ssrs, num_ssrs := max ssrs.length 1 }

/-! ## The counter -/

section Counter

variable {entries : List (Option Nat)} {p q k e : Nat}

/-- The counter after an entry. -/
def count (next_free_reg : Nat) (entry : Option Nat) : Nat :=
  if entry = none ∨ entry = some next_free_reg then next_free_reg + 1 else next_free_reg

/-- The counter before entry `p`. -/
def counter (entries : List (Option Nat)) (p : Nat) : Nat := (entries.take p).foldl count 0

/-- The index of entry `p`. -/
def index (entries : List (Option Nat)) (p : Nat) : Nat :=
  (entries.getD p none).getD (counter entries p)

/-- The automatic entries. -/
def autos (entries : List (Option Nat)) : Nat := entries.count none

/-- The numbers below `n` that no entry asks for. -/
def unasked (entries : List (Option Nat)) (n : Nat) : Nat :=
  ((List.range n).filter fun k => some k ∉ entries).length

/-- Entries stand where counting reaches them: an entry that asks for an index with fewer unasked
numbers below it than there are automatic entries stands behind that many of them, and behind all
entries that ask for less. -/
def Orderly (entries : List (Option Nat)) : Prop :=
  ∀ p e, entries[p]? = some (some e) → unasked entries e < autos entries →
    autos (entries.take p) = unasked entries e ∧
      ∀ e' < e, some e' ∈ entries → some e' ∈ entries.take p

/-- No two entries ask for one index. -/
def Explicit (entries : List (Option Nat)) : Prop := (entries.filterMap id).Nodup

instance (entries : List (Option Nat)) : Decidable (Explicit entries) :=
  inferInstanceAs (Decidable (entries.filterMap id).Nodup)

/-- No automatic entry before `p` got an index that an entry asks for. -/
def Clean (entries : List (Option Nat)) (p : Nat) : Prop :=
  ∀ q < p, entries[q]? = some none → some (counter entries q) ∉ entries

theorem counter_succ {entry : Option Nat} (here : entries[p]? = some entry) :
    counter entries (p + 1) = count (counter entries p) entry := by
  rw [counter, List.take_add_one, here, List.foldl_append]
  rfl

theorem counter_le (p : Nat) : counter entries p ≤ counter entries (p + 1) := by
  cases here : entries[p]? with
  | none => rw [counter, counter, List.take_add_one, here]; simp
  | some entry =>
    rw [counter_succ here, count]
    split <;> omega

theorem counter_mono (le : p ≤ q) : counter entries p ≤ counter entries q :=
  monotone_nat_of_le_succ counter_le le

/-- **Every number that the counter passes is handed out.** -/
theorem handed (le : p ≤ q) (low : counter entries p ≤ k) (high : k < counter entries q) :
    ∃ r, p ≤ r ∧ r < q ∧ counter entries r = k ∧
      (entries[r]? = some none ∨ entries[r]? = some (some k)) := by
  induction q, le using Nat.le_induction with
  | base => omega
  | succ q le ih =>
    by_cases before : k < counter entries q
    · obtain ⟨r, above, below, rest⟩ := ih before
      exact ⟨r, above, Nat.lt_succ_of_lt below, rest⟩
    · cases here : entries[q]? with
      | none =>
        have stays : counter entries (q + 1) = counter entries q := by
          rw [counter, counter, List.take_add_one, here]
          simp
        omega
      | some entry =>
        rw [counter_succ here, count] at high
        split at high
        · next taken =>
            obtain rfl : counter entries q = k := by omega
            refine ⟨q, le, Nat.lt_succ_self q, rfl, ?_⟩
            rw [here]
            exact taken.imp (congrArg some) (congrArg some)
        · omega

theorem Clean.mono (clean : Clean entries q) (le : p ≤ q) : Clean entries p :=
  fun r below => clean r (Nat.lt_of_lt_of_le below le)

theorem autos_succ {entry : Option Nat} (here : entries[p]? = some entry) :
    autos (entries.take (p + 1)) = autos (entries.take p) + if entry = none then 1 else 0 := by
  rw [autos, List.take_add_one, here, List.count_append]
  cases entry <;> simp [autos]

theorem autos_mono (le : p ≤ q) : autos (entries.take p) ≤ autos (entries.take q) := by
  rw [← Nat.min_eq_left le, ← List.take_take]
  exact (List.take_sublist _ _).count_le _

theorem unasked_succ (n : Nat) :
    unasked entries (n + 1) = unasked entries n + if some n ∈ entries then 0 else 1 := by
  rw [unasked, List.range_succ, List.filter_append, List.length_append]
  by_cases asked : some n ∈ entries <;> simp [unasked, asked]

theorem unasked_mono : Monotone (unasked entries) :=
  monotone_nat_of_le_succ fun n => by
    rw [unasked_succ]
    omega

/-- **Automatic entries take the unasked numbers in order.** -/
theorem Clean.autos_eq (clean : Clean entries p) :
    autos (entries.take p) = unasked entries (counter entries p) := by
  induction p with
  | zero => simp [autos, unasked, counter]
  | succ p ih =>
    have before := ih (clean.mono (Nat.le_succ p))
    cases here : entries[p]? with
    | none =>
      have stays : entries.take (p + 1) = entries.take p := by
        rw [List.take_add_one, here]
        simp
      rw [counter, stays]
      exact before
    | some entry =>
      rw [autos_succ here, counter_succ here, count, before]
      cases entry with
      | none => simp [unasked_succ, clean p (Nat.lt_succ_self p) here]
      | some e =>
        by_cases reached : e = counter entries p
        · have asked : some e ∈ entries := List.mem_of_getElem? here
          simp [← reached, unasked_succ, asked]
        · simp [reached]

/-- What was asked for below the counter stands before. -/
theorem Clean.asked_before (clean : Clean entries p) (asked : some e ∈ entries)
    (below : e < counter entries p) : some e ∈ entries.take p := by
  obtain ⟨r, -, before, reached, auto | explicit⟩ :=
    handed (Nat.zero_le p) (Nat.zero_le e) below
  · exact absurd asked (reached ▸ clean r before auto)
  · refine List.mem_of_getElem? (i := r) ?_
    rwa [List.getElem?_take_of_lt before]

theorem Explicit.inj (distinct : Explicit entries) (here : entries[p]? = some (some e))
    (there : entries[q]? = some (some e)) : p = q := by
  have apart : ∀ {p q : Nat}, entries[p]? = some (some e) → entries[q]? = some (some e) →
      ¬p < q := by
    intro p q here there before
    obtain ⟨inside, here⟩ := List.getElem?_eq_some_iff.mp here
    obtain ⟨inside', there⟩ := List.getElem?_eq_some_iff.mp there
    have pairs := List.pairwise_iff_getElem.mp (List.pairwise_filterMap.mp distinct)
    exact pairs p q inside inside' before e here e there rfl
  have := apart here there
  have := apart there here
  omega

/-- **Orderly entries leave the explicit indices alone.** -/
theorem Orderly.clean (orderly : Orderly entries) (distinct : Explicit entries) (p : Nat) :
    Clean entries p := by
  induction p with
  | zero => exact fun q none => absurd none (Nat.not_lt_zero q)
  | succ p clean =>
    intro q below auto asked
    rcases Nat.lt_succ_iff_lt_or_eq.mp below with before | rfl
    · exact clean q before auto asked
    · -- entry `q` is automatic and gets an index that entry `r` asks for
      obtain ⟨r, there⟩ := List.getElem?_of_mem asked
      have autos_here : autos (entries.take q) = unasked entries (counter entries q) :=
        clean.autos_eq
      have more : autos (entries.take (q + 1)) ≤ autos entries :=
        (List.take_sublist _ _).count_le _
      rw [autos_succ auto, if_pos rfl] at more
      obtain ⟨autos_there, lower⟩ := orderly r _ there (by omega)
      rcases Nat.lt_trichotomy r q with first | rfl | later
      · -- between `r` and `q` the counter needs an entry that is not there
        have behind : counter entries r < counter entries q := by
          refine Nat.lt_of_le_of_ne (counter_mono first.le) fun level => ?_
          have next : counter entries (r + 1) ≤ counter entries q := counter_mono first
          rw [counter_succ there, count, if_pos (.inr (congrArg some level.symm))] at next
          omega
        obtain ⟨r', above, below, reached, auto' | explicit⟩ := handed first.le le_rfl behind
        · have from_there : autos (entries.take r) ≤ autos (entries.take r') := autos_mono above
          have to_here : autos (entries.take (r' + 1)) ≤ autos (entries.take q) :=
            autos_mono (Nat.succ_le_of_lt below)
          rw [autos_succ auto', if_pos rfl] at to_here
          omega
        · have before := lower _ behind (List.mem_of_getElem? explicit)
          obtain ⟨r'', inside⟩ := List.getElem?_of_mem before
          obtain ⟨small, -⟩ := List.getElem?_eq_some_iff.mp inside
          have small : r'' < r := Nat.lt_of_lt_of_le small (by simp)
          rw [List.getElem?_take_of_lt small] at inside
          have := distinct.inj inside explicit
          omega
      · rw [there] at auto
        cases auto
      · have to_there : autos (entries.take (q + 1)) ≤ autos (entries.take r) :=
          autos_mono (Nat.succ_le_of_lt later)
        rw [autos_succ auto, if_pos rfl] at to_there
        omega

/-- **Without conflicts the entries are orderly.** -/
theorem Clean.orderly (clean : Clean entries entries.length) (distinct : Explicit entries) :
    Orderly entries := by
  intro q e here few
  have all : autos entries = unasked entries (counter entries entries.length) := by
    rw [← clean.autos_eq, List.take_length]
  have passed : e < counter entries entries.length := by
    by_contra ahead
    exact Nat.not_le_of_lt few (all ▸ unasked_mono (Nat.le_of_not_lt ahead))
  obtain ⟨r, -, inside, reached, auto | explicit⟩ :=
    handed (Nat.zero_le _) (Nat.zero_le e) passed
  · exact absurd (List.mem_of_getElem? here) (reached ▸ clean r inside auto)
  · obtain rfl := distinct.inj explicit here
    have before := clean.mono inside.le
    exact ⟨reached ▸ before.autos_eq, fun e' lower asked =>
      before.asked_before asked (reached ▸ lower)⟩

end Counter

/-! ## The streamers -/

section Streamers

variable {core result : CoreCfg} {tcdm_size : Nat}

/-- The indices of entries, with the counter before the first. -/
def indices : List (Option Nat) → Nat → List Nat
  | [], _ => []
  | entry :: entries, next_free_reg =>
    entry.getD next_free_reg :: indices entries (count next_free_reg entry)

theorem indices_getElem? (entries : List (Option Nat)) (next_free_reg p : Nat) :
    (indices entries next_free_reg)[p]? =
      entries[p]?.map fun entry => entry.getD ((entries.take p).foldl count next_free_reg) := by
  induction entries generalizing next_free_reg p with
  | nil => simp [indices]
  | cons entry entries ih =>
    cases p with
    | zero => simp [indices]
    | succ p => simpa [indices] using ih (count next_free_reg entry) p

/-- **The indices are distinct exactly if the entries are orderly.** -/
theorem registers_distinct_iff {entries : List (Option Nat)} (distinct : Explicit entries) :
    (indices entries 0).Nodup ↔ Orderly entries := by
  have place : ∀ {p : Nat} {entry : Option Nat}, entries[p]? = some entry →
      (indices entries 0)[p]? = some (entry.getD (counter entries p)) := by
    intro p entry here
    rw [indices_getElem?, here]
    rfl
  constructor
  · intro apart
    refine Clean.orderly (fun q _ auto asked => ?_) distinct
    obtain ⟨r, explicit⟩ := List.getElem?_of_mem asked
    obtain rfl : q = r := by
      obtain ⟨inside, here⟩ := List.getElem?_eq_some_iff.mp (place auto)
      obtain ⟨inside', there⟩ := List.getElem?_eq_some_iff.mp (place explicit)
      exact (List.Nodup.getElem_inj_iff apart).mp (here.trans there.symm)
    rw [explicit] at auto
    cases auto
  · intro orderly
    have clean := orderly.clean distinct
    refine List.nodup_iff_getElem?_ne_getElem?.mpr fun p q before inside same => ?_
    have known : ∀ r ≤ q, ∃ entry, entries[r]? = some entry := by
      intro r le
      have some_index := List.getElem?_eq_getElem (Nat.lt_of_le_of_lt le inside)
      rw [indices_getElem?] at some_index
      cases here : entries[r]? with
      | none => rw [here] at some_index; cases some_index
      | some entry => exact ⟨entry, rfl⟩
    obtain ⟨left, here⟩ := known p before.le
    obtain ⟨right, there⟩ := known q le_rfl
    rw [place here, place there] at same
    have same := Option.some.inj same
    cases left with
    | none =>
      cases right with
      | none =>
        have next : counter entries (p + 1) ≤ counter entries q := counter_mono before
        rw [counter_succ here, count, if_pos (.inl rfl)] at next
        simp only [Option.getD_none] at same
        omega
      | some e =>
        obtain rfl : counter entries p = e := same
        exact clean (p + 1) p (Nat.lt_succ_self p) here (List.mem_of_getElem? there)
    | some e =>
      cases right with
      | none =>
        obtain rfl : e = counter entries q := same
        exact clean (q + 1) q (Nat.lt_succ_self q) there (List.mem_of_getElem? here)
      | some e' =>
        obtain rfl : e = e' := same
        exact Nat.ne_of_lt before (distinct.inj here there)

/-- The streamers that are generated. -/
def CoreCfg.streamers (core : CoreCfg) : List Ssr := if core.xssr then core.ssrs else []

/-- The roles of an intersection. -/
inductive Role
  | master0
  | master1
  | slave

def Ssr.role (ssr : Ssr) : Role → Bool
  | .master0 => ssr.isect_master && !ssr.isect_master_idx
  | .master1 => ssr.isect_master && ssr.isect_master_idx
  | .slave => ssr.isect_slave

/-- The entry of the triple for a role. -/
def CoreCfg.entry (core : CoreCfg) : Role → Nat
  | .master0 => core.ssr_intersection_triple.1
  | .master1 => core.ssr_intersection_triple.2.1
  | .slave => core.ssr_intersection_triple.2.2

/-- **The roles follow the index** that an entry has by then. -/
theorem parse_isect_ssr_spec {ssr out : Ssr} (parsed : parse_isect_ssr ssr core = .ok out) :
    out.reg_idx = ssr.reg_idx ∧
      (core.ssr_intersection = true → core.entry .master0 ≠ core.entry .master1 →
        ∀ r, out.role r = true ↔ ssr.reg_idx = some (core.entry r)) := by
  obtain ⟨xssr, ssrs, enabled, ⟨master0, master1, slave⟩, num_ssrs⟩ := core
  unfold parse_isect_ssr at parsed
  cases enabled with
  | false =>
    cases parsed
    exact ⟨rfl, nofun⟩
  | true =>
    simp only [if_true] at parsed
    split at parsed
    · next master =>
        split at parsed
        · cases parsed
        · simp only [pure_bind] at parsed
          split at parsed
          · next last =>
              cases parsed
              refine ⟨rfl, fun _ apart r => ?_⟩
              cases r <;> grind [Ssr.role, CoreCfg.entry]
          · next other =>
              cases parsed
              refine ⟨rfl, fun _ apart r => ?_⟩
              cases r <;> grind [Ssr.role, CoreCfg.entry]
    · next plain =>
        simp only [pure_bind] at parsed
        split at parsed
        · next last =>
            cases parsed
            refine ⟨rfl, fun _ apart r => ?_⟩
            cases r <;> grind [Ssr.role, CoreCfg.entry]
        · next other =>
            cases parsed
            refine ⟨rfl, fun _ apart r => ?_⟩
            cases r <;> grind [Ssr.role, CoreCfg.entry]

/-- What is assigned to an entry with index `i`. -/
structure Assigned (core : CoreCfg) (ssr : Ssr) (i : Nat) (out : Ssr) : Prop where
  reg_idx : out.reg_idx = some i
  explicit : ∀ e, ssr.reg_idx = some e → i = e
  roles : core.ssr_intersection = true → core.entry .master0 ≠ core.entry .master1 →
    ∀ r, out.role r = true ↔ i = core.entry r

/-- **The loop assigns the indices** in the order of the entries. -/
theorem assign_spec (ssrs : List Ssr) (next_free_reg : Nat) (outs : List Ssr)
    (parsed : assign core ssrs next_free_reg = .ok outs) :
    outs.map (·.reg_idx) = (indices (ssrs.map (·.reg_idx)) next_free_reg).map some ∧
      List.Forall₂ (fun ssr out => ∃ i, Assigned core ssr i out) ssrs outs := by
  induction ssrs generalizing next_free_reg outs with
  | nil =>
    cases parsed
    exact ⟨rfl, .nil⟩
  | cons ssr ssrs ih =>
    -- one entry, with the counter before and after it
    have one : ∀ (given : Ssr) (next : Nat),
        given.reg_idx = some (ssr.reg_idx.getD next_free_reg) →
        next = count next_free_reg ssr.reg_idx →
        (do
          let out ← parse_isect_ssr given core
          return out :: (← assign core ssrs next)) = Except.ok outs →
        outs.map (·.reg_idx) =
            (indices ((ssr :: ssrs).map (·.reg_idx)) next_free_reg).map some ∧
          List.Forall₂ (fun ssr out => ∃ i, Assigned core ssr i out) (ssr :: ssrs) outs := by
      rintro given next same rfl done
      cases first : parse_isect_ssr given core with
      | error e =>
        rw [first] at done
        cases done
      | ok out =>
        cases rest : assign core ssrs (count next_free_reg ssr.reg_idx) with
        | error e =>
          rw [first, rest] at done
          cases done
        | ok outs' =>
          rw [first, rest] at done
          cases done
          obtain ⟨index, roles⟩ := parse_isect_ssr_spec first
          obtain ⟨indices_eq, assigned⟩ := ih _ _ rest
          rw [same] at index roles
          refine ⟨?_, .cons ⟨_, index, fun e asked => by rw [asked]; rfl, ?_⟩ assigned⟩
          · simp [indices, indices_eq, index]
          · simpa using roles
    rw [assign] at parsed
    split at parsed
    · next taken =>
        refine one _ _ ?_ ?_ parsed
        · rcases taken with none | reached
          · rw [none]; rfl
          · rw [reached]; rfl
        · rw [count, if_pos taken]
    · next other =>
        obtain ⟨e, explicit⟩ : ∃ e, ssr.reg_idx = some e :=
          Option.ne_none_iff_exists'.mp fun none => other (.inl none)
        refine one _ _ ?_ ?_ parsed
        · rw [explicit]; rfl
        · rw [count, if_neg other]

/-- What the decoders of a core rely on: no index twice, those that were asked for given, the list
in the order of the indices, and each role of an intersection at most once, at the index that the
triple has for it. -/
structure Unambiguous (core result : CoreCfg) : Prop where
  distinct : (result.ssrs.map (·.reg_idx)).Nodup
  explicit : ∃ assigned : List Ssr, assigned.Perm result.ssrs ∧
    List.Forall₂ (fun ssr out => out.reg_idx.isSome ∧
      ∀ e, ssr.reg_idx = some e → out.reg_idx = some e) core.streamers assigned
  sorted : result.ssrs.Pairwise fun x y => ∀ a ∈ x.reg_idx, ∀ b ∈ y.reg_idx, a ≤ b
  roles : core.ssr_intersection = true → Function.Injective core.entry → ∀ r,
    (result.ssrs.filter (·.role r)).length ≤ 1 ∧
      ∀ ssr ∈ result.ssrs, ssr.role r = true ↔ ssr.reg_idx = some (core.entry r)

theorem CoreCfg.consistent_eq (core : CoreCfg) : core.consistent.ssrs = core.streamers ∧
    core.consistent.entry = core.entry ∧
    core.consistent.ssr_intersection = core.ssr_intersection := by
  unfold consistent
  split
  · next none =>
      refine ⟨?_, rfl, rfl⟩
      rcases none with off | empty
      · simp [streamers, off]
      · simp [streamers, empty]
  · next some =>
      simp only [not_or, not_not] at some
      exact ⟨by rw [streamers, if_pos some.1], rfl, rfl⟩

/-- **What `parse_cores` leaves of a core.** -/
theorem parse_core_spec (parsed : parse_core tcdm_size core = .ok result) :
    ∃ outs : List Ssr, outs.Perm result.ssrs ∧
      outs.map (·.reg_idx) = (indices (core.streamers.map (·.reg_idx)) 0).map some ∧
      List.Forall₂ (fun ssr out => ∃ i, Assigned core ssr i out) core.streamers outs ∧
      result.ssrs.Pairwise fun x y => x.key ≤ y.key := by
  have sorted : ∀ ssrs : List Ssr,
      (ssrs.mergeSort fun x y => x.key ≤ y.key).Pairwise fun x y => x.key ≤ y.key := by
    intro ssrs
    have pairs : (ssrs.mergeSort fun x y => decide (x.key ≤ y.key)).Pairwise
        fun x y => decide (x.key ≤ y.key) = true :=
      List.pairwise_mergeSort (fun x y z => by simpa using Nat.le_trans)
        (fun x y => by simpa using Nat.le_total _ _) ssrs
    simpa using pairs
  obtain ⟨streamers, entry, enabled⟩ := core.consistent_eq
  unfold parse_core at parsed
  cases loop : assign core.consistent core.consistent.ssrs 0 with
  | error e =>
    simp only [loop] at parsed
    cases parsed
  | ok outs =>
    simp only [loop] at parsed
    cases parsed
    obtain ⟨indices_eq, assigned⟩ := assign_spec _ _ _ loop
    rw [streamers] at indices_eq assigned
    refine ⟨outs.map (setDefaults tcdm_size), (List.mergeSort_perm _ _).symm, ?_, ?_, sorted _⟩
    · rw [← indices_eq, List.map_map]
      rfl
    · refine List.forall₂_map_right_iff.mpr (assigned.imp ?_)
      rintro ssr out ⟨i, index, explicit, roles⟩
      refine ⟨i, index, explicit, fun on apart r => ?_⟩
      rw [← entry]
      refine Iff.trans (by cases r <;> rfl) (roles (enabled ▸ on) (entry ▸ apart) r)

/-- **The indices of a core are unambiguous exactly if its entries are orderly.** -/
theorem registers_unambiguous_iff (tcdm_size : Nat) (core result : CoreCfg)
    (explicit : Explicit (core.streamers.map (·.reg_idx)))
    (parsed : parse_core tcdm_size core = .ok result) :
    Unambiguous core result ↔ Orderly (core.streamers.map (·.reg_idx)) := by
  obtain ⟨outs, perm, indices_eq, assigned, sorted⟩ := parse_core_spec parsed
  have same : (result.ssrs.map (·.reg_idx)).Nodup ↔
      (indices (core.streamers.map (·.reg_idx)) 0).Nodup := by
    rw [← (perm.map _).nodup_iff, indices_eq]
    exact List.nodup_map_iff (Option.some_injective _)
  have known : ∀ ssr ∈ result.ssrs, ∃ i given, Assigned core given i ssr := by
    intro ssr member
    obtain ⟨p, inside, rfl⟩ := List.getElem_of_mem (perm.mem_iff.mpr member)
    obtain ⟨same, each⟩ := List.forall₂_iff_get.mp assigned
    obtain ⟨i, given⟩ := each p (same ▸ inside) inside
    exact ⟨i, _, given⟩
  refine ⟨fun unambiguous => (registers_distinct_iff explicit).mp (same.mp unambiguous.distinct),
    fun orderly => ?_⟩
  have distinct := same.mpr ((registers_distinct_iff explicit).mpr orderly)
  refine ⟨distinct, ⟨outs, perm, assigned.imp ?_⟩, ?_, fun on apart r => ?_⟩
  · rintro ssr out ⟨i, index, asked, -⟩
    exact ⟨by simp [index], fun e here => by rw [index, asked e here]⟩
  · refine sorted.imp ?_
    intro x y le a ha b hb
    simpa [Ssr.key, Option.mem_def.mp ha, Option.mem_def.mp hb] using le
  · have role : ∀ ssr ∈ result.ssrs,
        ssr.role r = true ↔ ssr.reg_idx = some (core.entry r) := by
      intro ssr member
      obtain ⟨i, given, index, -, roles⟩ := known ssr member
      rw [roles on (apart.ne nofun) r, index, Option.some.injEq]
    refine ⟨?_, role⟩
    have entries : (result.ssrs.filter (·.role r)).map (·.reg_idx) =
        List.replicate (result.ssrs.filter (·.role r)).length (some (core.entry r)) := by
      refine List.eq_replicate_iff.mpr ⟨List.length_map _, fun index member => ?_⟩
      obtain ⟨ssr, filtered, rfl⟩ := List.mem_map.mp member
      obtain ⟨member, has⟩ := List.mem_filter.mp filtered
      exact (role ssr member).mp has
    have fewer : (result.ssrs.filter (·.role r)).Sublist result.ssrs := List.filter_sublist
    have once := distinct.sublist (fewer.map (·.reg_idx))
    rw [entries] at once
    exact List.nodup_replicate.mp once

/-- A core with intersection whose streamers ask for some indices. -/
def coreOf (entries : List (Option Nat)) : CoreCfg where
  xssr := true
  ssrs := entries.map fun reg_idx => ⟨reg_idx, true, none, none, false, false, false⟩
  ssr_intersection := true
  ssr_intersection_triple := (0, 1, 2)

/-- Between two automatic entries stands the one that asks for the index in between. -/
theorem registers_unambiguous_three : ∃ result,
    parse_core 128 (coreOf [none, some 1, none]) = .ok result ∧
      (Unambiguous (coreOf [none, some 1, none]) result ↔
        Orderly ((coreOf [none, some 1, none]).streamers.map (·.reg_idx))) :=
  ⟨_, rfl, registers_unambiguous_iff 128 _ _ (by decide) rfl⟩

/-- An entry that asks for index 1 after two automatic ones shares it with the second. -/
theorem late_index_shared : ∃ result,
    parse_core 128 (coreOf [none, none, some 1]) = .ok result ∧
      Explicit ((coreOf [none, none, some 1]).streamers.map (·.reg_idx)) ∧
      ¬Unambiguous (coreOf [none, none, some 1]) result := by
  refine ⟨_, rfl, by decide, fun unambiguous => ?_⟩
  have parsed : parse_core 128 (coreOf [none, none, some 1]) = .ok _ := rfl
  obtain ⟨outs, perm, indices_eq, -⟩ := parse_core_spec parsed
  have distinct := (perm.map _).nodup_iff.mpr unambiguous.distinct
  rw [indices_eq] at distinct
  exact absurd distinct (by decide)

end Streamers

end SnitchCluster.Config
