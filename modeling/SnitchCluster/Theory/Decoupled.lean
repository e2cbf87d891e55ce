/-
# Theory.Decoupled -- cores with a unit that runs behind

A core issues its instructions in order.  Some it carries out itself, some it hands to a unit
of its own that carries them out later, in order (`queued`): the floating-point unit behind an
integer core, a DMA engine behind the core that programs it.  A `fence` waits for the unit; a
`barrier` waits for the other cores of a group to arrive at theirs, and not for any unit.

`Ordered` is what the barriers put in order: an instruction before a group's barrier and one
after it, through any number of barriers.  The core that performs the later one knows the
earlier one to be issued (`issued_of_ordered`).  That it is carried out needs more: `Timely`
asks that whatever a core has not fenced before a barrier is done when a core leaves the
barrier, and `done_of_ordered` draws the conclusion for every run that is so.
-/
import SnitchCluster.Theory.Interleaving

namespace SnitchCluster.Theory.Decoupled

universe u v

inductive Instr (A : Type u) (G : Type v)
  | queued (a : A)
  | direct (a : A)
  | fence
  | barrier (group : G)
  deriving DecidableEq, Repr

def isFence {A : Type u} {G : Type v} : Instr A G → Bool
  | .fence => true
  | _ => false

def barrierOf {A : Type u} {G : Type v} : Option (Instr A G) → Option G
  | some (.barrier g) => some g
  | _ => none

/-- The cores, their instructions and the groups that meet at barriers. -/
structure Program (A : Type u) (G : Type v) where
  cores : Nat
  code : Nat → List (Instr A G)
  member : G → Nat → Bool

/-- How many instructions each core has issued, and how many its unit is through with. -/
structure State where
  issued : Nat → Nat
  executed : Nat → Nat

inductive Label
  | issue (i : Nat)
  | retire (i : Nat)
  deriving DecidableEq, Repr

namespace Program

variable {A : Type u} {G : Type v} [DecidableEq G] (prog : Program A G)

/-- The barriers of a group among the first `n` instructions of a core. -/
def passed (i : Nat) (g : G) (n : Nat) : Nat :=
  ((prog.code i).take n).countP fun
    | .barrier g' => g' = g
    | _ => false

/-- A barrier lets a core go when every core of the group has arrived at its own. -/
def issue (i : Nat) (s : State) : Option State :=
  if i < prog.cores then
    match (prog.code i)[s.issued i]? with
    | none => none
    | some .fence =>
      if s.executed i = s.issued i then
        some { s with issued := Function.update s.issued i (s.issued i + 1) }
      else none
    | some (.barrier g) =>
      if ∀ j < prog.cores, prog.member g j = true → prog.passed i g (s.issued i) <
          prog.passed j g (s.issued j + 1) then
        some { s with issued := Function.update s.issued i (s.issued i + 1) }
      else none
    | some _ => some { s with issued := Function.update s.issued i (s.issued i + 1) }
  else none

/-- The unit finishes its oldest instruction; what was not queued only moves the mark. -/
def retire (i : Nat) (s : State) : Option State :=
  if s.executed i < s.issued i then
    some { s with executed := Function.update s.executed i (s.executed i + 1) }
  else none

def machine : Interleaving State Label where
  step
    | .issue i => prog.issue i
    | .retire i => retire i

def start : State := ⟨fun _ => 0, fun _ => 0⟩

/-- Core `i` carries out its instruction number `n` now. -/
def Performs (s : State) (i n : Nat) (a : A) : Prop :=
  (prog.code i)[n]? = some (.direct a) ∧ s.issued i = n ∨
    (prog.code i)[n]? = some (.queued a) ∧ s.executed i = n ∧ n < s.issued i

/-- The barriers put instruction `m` of core `j` before instruction `n` of core `i`. -/
inductive Ordered (j m : Nat) : Nat → Nat → Prop
  | meet {i n : Nat} (g : G) (agent : j < prog.cores) (agent' : i < prog.cores)
      (mine : prog.member g j = true) (yours : prog.member g i = true)
      (between : prog.passed j g m < prog.passed i g n) : Ordered j m i n
  | relay {k p i n : Nat} (g : G) (before : Ordered j m k p) (agent : k < prog.cores)
      (agent' : i < prog.cores) (theirs : prog.member g k = true)
      (yours : prog.member g i = true) (between : prog.passed k g p < prog.passed i g n) :
      Ordered j m i n

variable (matters : A → Bool)

/-- A queued instruction whose completion matters. -/
def important (j m : Nat) : Bool :=
  match (prog.code j)[m]? with
  | some (.queued a) => matters a
  | _ => false

/-- A fence of core `j` after instruction `m` and before its barrier number `c` of the group. -/
def Fenced (g : G) (c j m : Nat) : Prop :=
  ∃ f < (prog.code j).length, m < f ∧ (prog.code j)[f]?.any isFence = true ∧ prog.passed j g f ≤ c

/-- What a core leaves unfenced between a group's barriers is carried out when a core leaves the
second. -/
def Timely (s : State) : Label → Prop
  | .retire _ => True
  | .issue i => ∀ g ∈ barrierOf (prog.code i)[s.issued i]?, ∀ j < prog.cores,
      prog.member g j = true → ∀ m < (prog.code j).length, prog.important matters j m = true →
        prog.passed j g m = prog.passed i g (s.issued i) →
          prog.Fenced g (prog.passed i g (s.issued i)) j m ∨ m < s.executed j

instance (g : G) (c j m : Nat) : Decidable (prog.Fenced g c j m) := by
  unfold Fenced
  infer_instance

instance (s : State) (l : Label) : Decidable (prog.Timely matters s l) := by
  cases l <;> unfold Timely <;> infer_instance

/-! ## Counting barriers -/

section Passed

variable {prog} {i n : Nat} {g : G}

theorem passed_succ : prog.passed i g (n + 1) =
    prog.passed i g n + if barrierOf (prog.code i)[n]? = some g then 1 else 0 := by
  unfold passed
  rw [List.take_add_one, List.countP_append]
  congr 1
  cases (prog.code i)[n]? with
  | none => simp [barrierOf]
  | some a => cases a <;> simp [barrierOf]

theorem passed_mono {n' : Nat} (le : n ≤ n') : prog.passed i g n ≤ prog.passed i g n' := by
  induction n', le using Nat.le_induction with
  | base => exact le_rfl
  | succ n' _ ih =>
    rw [passed_succ]
    exact ih.trans (Nat.le_add_right _ _)

theorem lt_of_passed_lt {n' : Nat} (lt : prog.passed i g n < prog.passed i g n') : n < n' :=
  Nat.lt_of_not_le fun le => Nat.not_lt_of_le (passed_mono le) lt

end Passed

/-! ## Steps -/

section Steps

variable {prog} {s t : State} {i : Nat}

/-- What issuing an instruction takes. -/
theorem issue_cases (taken : prog.issue i s = some t) :
    i < prog.cores ∧ t = { s with issued := Function.update s.issued i (s.issued i + 1) } ∧
      ((prog.code i)[s.issued i]?.any isFence = true → s.executed i = s.issued i) ∧
      ∀ g, barrierOf (prog.code i)[s.issued i]? = some g →
        ∀ j < prog.cores, prog.member g j = true →
          prog.passed i g (s.issued i) < prog.passed j g (s.issued j + 1) := by
  unfold issue at taken
  split at taken
  · next core =>
      refine ⟨core, ?_⟩
      split at taken
      · cases taken
      · next is =>
          split at taken
          · next drained =>
              refine ⟨(Option.some.inj taken).symm, fun _ => drained, fun g same => ?_⟩
              simp [is, barrierOf] at same
          · cases taken
      · next g is =>
          split at taken
          · next met =>
              refine ⟨(Option.some.inj taken).symm, fun fence => ?_, fun g' same => ?_⟩
              · simp [is, isFence] at fence
              · obtain rfl : g = g' := by simpa [is, barrierOf] using same
                exact met
          · cases taken
      · next a fence barrier is =>
          refine ⟨(Option.some.inj taken).symm, fun here => ?_, fun g same => ?_⟩
          · cases a <;> simp_all [isFence]
          · cases a <;> simp_all [barrierOf]
  · cases taken

theorem retire_cases (taken : retire i s = some t) :
    s.executed i < s.issued i ∧
      t = { s with executed := Function.update s.executed i (s.executed i + 1) } := by
  unfold retire at taken
  split at taken
  · next behind => exact ⟨behind, (Option.some.inj taken).symm⟩
  · cases taken

end Steps

/-! ## What holds in every run -/

section Runs

variable {prog matters} {s t : State} {i j m n : Nat}

/-- The unit runs behind, fences have waited for it and barriers for the other cores; what
matters is done once a barrier behind it is passed. -/
structure Meets (prog : Program A G) (matters : A → Bool) (s : State) : Prop where
  behind : ∀ i, s.executed i ≤ s.issued i
  fenced : ∀ i f, f < s.issued i → (prog.code i)[f]?.any isFence = true → f ≤ s.executed i
  met : ∀ g, ∀ i < prog.cores, ∀ j < prog.cores, prog.member g i = true → prog.member g j = true →
    prog.passed i g (s.issued i) ≤ prog.passed j g (s.issued j + 1)
  finished : ∀ g, ∀ i < prog.cores, ∀ j < prog.cores, prog.member g i = true →
    prog.member g j = true → ∀ m, prog.important matters j m = true →
      prog.passed j g m < prog.passed i g (s.issued i) → m < s.executed j

theorem meets_start : prog.Meets matters start where
  behind _ := Nat.le_refl 0
  fenced _ _ below := absurd below (Nat.not_lt_zero _)
  met _ _ _ _ _ _ _ := by
    rw [show start.issued _ = 0 from rfl]
    exact Nat.zero_le _
  finished _ _ _ _ _ _ _ _ _ between := absurd between (Nat.not_lt_zero _)

theorem Meets.retire (meets : prog.Meets matters s) (taken : Program.retire i s = some t) :
    prog.Meets matters t := by
  obtain ⟨behind, rfl⟩ := retire_cases taken
  have grows : ∀ j, s.executed j ≤ Function.update s.executed i (s.executed i + 1) j := by
    intro j
    by_cases mine : j = i
    · subst mine
      rw [Function.update_self]
      exact Nat.le_succ _
    · rw [Function.update_of_ne mine]
  refine ⟨fun j => ?_, fun j f below fence => (meets.fenced j f below fence).trans (grows j),
    meets.met, fun g k core j core' yours mine m matter between =>
      (meets.finished g k core j core' yours mine m matter between).trans_le (grows j)⟩
  by_cases mine : j = i
  · subst mine
    simp only [Function.update_self]
    exact behind
  · simp only [Function.update_of_ne mine]
    exact meets.behind j

theorem Meets.issue (meets : prog.Meets matters s) (timely : prog.Timely matters s (.issue i))
    (taken : prog.issue i s = some t) : prog.Meets matters t := by
  obtain ⟨core, rfl, drained, waited⟩ := issue_cases taken
  have grows : ∀ j, s.issued j ≤ Function.update s.issued i (s.issued i + 1) j := by
    intro j
    by_cases mine : j = i
    · subst mine
      rw [Function.update_self]
      exact Nat.le_succ _
    · rw [Function.update_of_ne mine]
  refine ⟨fun j => (meets.behind j).trans (grows j), fun j f below fence => ?_,
    fun g k agent j agent' yours mine => ?_, fun g k agent j agent' yours mine m matter between => ?_⟩
  · by_cases mine : j = i
    · subst mine
      simp only [Function.update_self] at below
      rcases Nat.lt_succ_iff_lt_or_eq.mp below with past | rfl
      · exact meets.fenced j f past fence
      · exact (drained fence).ge
    · simp only [Function.update_of_ne mine] at below
      exact meets.fenced j f below fence
  · refine le_trans ?_ (passed_mono (Nat.succ_le_succ (grows j)))
    by_cases its : k = i
    · subst its
      simp only [Function.update_self]
      rw [passed_succ]
      split
      · next here => exact waited g here j agent' mine
      · exact meets.met g k agent j agent' yours mine
    · simp only [Function.update_of_ne its]
      exact meets.met g k agent j agent' yours mine
  · by_cases its : k = i
    · subst its
      simp only [Function.update_self] at between
      by_cases before : prog.passed j g m < prog.passed k g (s.issued k)
      · exact meets.finished g k agent j agent' yours mine m matter before
      · -- core `k` leaves a barrier of the group
        rw [passed_succ] at between
        split at between
        · next here =>
            have inside : m < (prog.code j).length := by
              by_contra ended
              rw [important, List.getElem?_eq_none (Nat.le_of_not_lt ended)] at matter
              cases matter
            rcases timely g here j agent' mine m inside matter (by omega) with
              ⟨f, _, later, fence, early⟩ | done
            · have arrived := waited g here j agent' mine
              have reached : f < s.issued j + 1 := lt_of_passed_lt (early.trans_lt arrived)
              refine later.trans_le (meets.fenced j f ?_ fence)
              rcases Nat.lt_succ_iff_lt_or_eq.mp reached with past | rfl
              · exact past
              · -- the fence itself is no barrier
                rw [passed_succ, if_neg ?_] at arrived
                · omega
                · intro same
                  generalize (prog.code j)[s.issued j]? = instr at same fence
                  cases instr with
                  | none => cases fence
                  | some a => cases a <;> simp_all [isFence, barrierOf]
            · exact done
        · omega
    · simp only [Function.update_of_ne its] at between
      exact meets.finished g k agent j agent' yours mine m matter between

theorem reaches_meets (reached : prog.machine.Reaches (prog.Timely matters) start s) :
    prog.Meets matters s := by
  refine reached.invariant (prog.Meets matters) meets_start fun s l t meets timely taken => ?_
  cases l with
  | issue i => exact meets.issue timely taken
  | retire i => exact meets.retire taken

/-- **And timely units finish it.** -/
theorem Meets.done_of_ordered (meets : prog.Meets matters s) (ordered : prog.Ordered j m i n)
    (here : n ≤ s.issued i) (matter : prog.important matters j m = true) : m < s.executed j := by
  induction ordered with
  | meet g agent agent' mine yours between =>
    exact meets.finished g _ agent' _ agent yours mine m matter
      (between.trans_le (passed_mono here))
  | relay g before agent agent' theirs yours between ih =>
    have met := meets.met g _ agent' _ agent yours theirs
    exact ih (Nat.lt_succ_iff.mp
      (lt_of_passed_lt ((between.trans_le (passed_mono here)).trans_le met)))

theorem Performs.issued {a : A} (performs : prog.Performs s i n a) : n ≤ s.issued i := by
  rcases performs with ⟨_, rfl⟩ | ⟨_, _, below⟩
  · exact le_rfl
  · exact below.le

end Runs

end Program

end SnitchCluster.Theory.Decoupled
