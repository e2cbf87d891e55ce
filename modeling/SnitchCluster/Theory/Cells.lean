/-
# Theory.Cells -- queues and pipeline stages known by contract only

The designs instantiate library cells whose sources are not part of them: a
first-in first-out buffer, an output spill register, an associative queue.  A
cell is a state with the functions its ports compute; what a design may rely on
is a separate proposition (`Lawful`), stated through the list of elements the
cell presently stores.  The laws speak only about uses within the protocol of
the cell: nothing is promised about a push into a full buffer or a pop from an
empty one, so whoever uses a law proves that the protocol is kept.

Each contract is inhabited (`Fifo.ofList`, `Spill.ofList`, `IdQueue.ofList`).
-/
import Mathlib.Data.List.Basic

namespace SnitchCluster.Theory

/-- There are two takers, or three, to choose from. -/
theorem twoTakers : @NeZero Nat Zero.ofOfNat0 2 := ⟨Nat.succ_ne_zero 1⟩

theorem threeTakers : @NeZero Nat Zero.ofOfNat0 3 := ⟨Nat.succ_ne_zero 2⟩

attribute [instance] twoTakers threeTakers

/-! ## First-in first-out buffers -/

/-- The ports of a buffer that shows a pushed element from the next cycle on. -/
structure Fifo (α : Type) where
  State : Type
  init : State
  full : State → Bool
  empty : State → Bool
  data : State → α
  next : State → (flush push : Bool) → α → (pop : Bool) → State

/-- The contract of a buffer of `depth` elements; `contents` lists the stored
elements, the oldest first. -/
structure Fifo.Lawful {α : Type} (F : Fifo α) (depth : Nat) (contents : F.State → List α) :
    Prop where
  init : contents F.init = []
  full_iff : ∀ s, F.full s = true ↔ depth ≤ (contents s).length
  empty_iff : ∀ s, F.empty s = true ↔ contents s = []
  data_head : ∀ s x rest, contents s = x :: rest → F.data s = x
  flush : ∀ s push x pop, contents (F.next s true push x pop) = []
  next : ∀ s push x pop, (push = true → F.full s = false) → (pop = true → F.empty s = false) →
    contents (F.next s false push x pop) =
      (if pop then (contents s).tail else contents s) ++ if push then [x] else []

namespace Fifo

variable {α : Type}

/-- The buffer that stores its list; out-of-protocol pushes and pops do nothing. -/
def ofList (depth : Nat) (default : α) : Fifo α where
  State := List α
  init := []
  full s := decide (depth ≤ s.length)
  empty s := s.isEmpty
  data s := s.headD default
  next s flush push x pop :=
    if flush then []
    else (if pop then s.tail else s) ++ if push && !decide (depth ≤ s.length) then [x] else []

theorem ofList_lawful (depth : Nat) (default : α) :
    (ofList depth default).Lawful depth (fun s : List α => s) where
  init := rfl
  full_iff s := by simp [ofList]
  empty_iff _ := List.isEmpty_iff
  data_head _ x rest h := by cases h; rfl
  flush s push x pop := by simp [ofList]
  next s push x pop room _ := by
    cases push with
    | false => simp [ofList]
    | true =>
      have free := room rfl
      simp only [ofList, decide_eq_false_iff_not] at free
      simp [ofList, free]

variable {F : Fifo α} {depth : Nat} {contents : F.State → List α}

theorem Lawful.empty_eq_isEmpty (lawful : F.Lawful depth contents) (s : F.State) :
    F.empty s = (contents s).isEmpty := by
  rw [Bool.eq_iff_iff, lawful.empty_iff, List.isEmpty_iff]

theorem Lawful.full_eq_decide (lawful : F.Lawful depth contents) (s : F.State) :
    F.full s = decide (depth ≤ (contents s).length) := by
  rw [Bool.eq_iff_iff, lawful.full_iff, decide_eq_true_iff]

end Fifo

/-- A buffer together with its contract. -/
structure LawfulFifo (α : Type) (depth : Nat) extends Fifo α where
  contents : State → List α
  lawful : toFifo.Lawful depth contents

/-- The reference buffer. -/
def LawfulFifo.ofList {α : Type} (depth : Nat) (default : α) : LawfulFifo α depth where
  toFifo := Fifo.ofList depth default
  contents s := s
  lawful := Fifo.ofList_lawful depth default

/-! ## Spill registers -/

/-- The ports of a handshaked pipeline stage. -/
structure Spill (α : Type) where
  State : Type
  init : State
  ready : State → (readyIn : Bool) → Bool
  valid : State → (validIn : Bool) → Bool
  data : State → (dataIn : α) → α
  next : State → (validIn : Bool) → (dataIn : α) → (readyIn : Bool) → State

/-- The contract of a spill register.  With `bypass` it is a wire; without, it
stores what it accepts and shows the oldest element.  Either way nothing is
lost, duplicated or reordered (`conserve`). -/
structure Spill.Lawful {α : Type} (R : Spill α) (bypass : Bool) (contents : R.State → List α) :
    Prop where
  init : contents R.init = []
  wire : bypass = true → ∀ s, contents s = []
  wire_data : bypass = true → ∀ s d, R.data s d = d
  wire_ready : bypass = true → ∀ s r, R.ready s r = r
  accepts : bypass = false → ∀ s r, contents s = [] → R.ready s r = true
  valid_eq : ∀ s v, R.valid s v = (!(contents s).isEmpty || (bypass && v))
  data_head : ∀ s x rest d, contents s = x :: rest → R.data s d = x
  conserve : ∀ s v d r,
    contents s ++ (if v && R.ready s r then [d] else []) =
      (if R.valid s v && r then [R.data s d] else []) ++ contents (R.next s v d r)

namespace Spill

variable {α : Type}

/-- The stage that stores its list: two elements deep, or a wire. -/
def ofList (bypass : Bool) : Spill α where
  State := List α
  init := []
  ready s r := if bypass then r else decide (s.length < 2)
  valid s v := if bypass then v else !s.isEmpty
  data s d := if bypass then d else s.headD d
  next s v d r :=
    if bypass then [] else
      (if !s.isEmpty && r then s.tail else s) ++ if v && decide (s.length < 2) then [d] else []

theorem ofList_lawful_wire :
    (ofList true : Spill α).Lawful true (fun _ : List α => []) where
  init := rfl
  wire _ _ := rfl
  wire_data _ _ _ := rfl
  wire_ready _ _ _ := rfl
  accepts h := by simp at h
  valid_eq s v := by simp [ofList]
  data_head s x rest d h := by simp at h
  conserve s v d r := by simp [ofList]

theorem ofList_lawful_registered :
    (ofList false : Spill α).Lawful false (fun s : List α => s) where
  init := rfl
  wire h := by simp at h
  wire_data h := by simp at h
  wire_ready h := by simp at h
  accepts _ s r h := by cases h; rfl
  valid_eq s v := by simp [ofList]
  data_head s x rest d h := by cases h; rfl
  conserve s v d r := by
    cases s with
    | nil => simp [ofList]
    | cons x rest => cases r <;> simp [ofList]

/-- The contents the reference stage stores. -/
def listContents (bypass : Bool) (s : (ofList bypass : Spill α).State) : List α :=
  if bypass then [] else s

theorem ofList_lawful (bypass : Bool) :
    (ofList bypass : Spill α).Lawful bypass (listContents bypass) := by
  cases bypass with
  | true => exact ofList_lawful_wire
  | false => exact ofList_lawful_registered

end Spill

/-- A spill register together with its contract. -/
structure LawfulSpill (α : Type) (bypass : Bool) extends Spill α where
  contents : State → List α
  lawful : toSpill.Lawful bypass contents

/-- The reference stage. -/
def LawfulSpill.ofList {α : Type} (bypass : Bool) : LawfulSpill α bypass where
  toSpill := Spill.ofList bypass
  contents := Spill.listContents bypass
  lawful := Spill.ofList_lawful bypass

/-! ## Associative queues -/

/-- The ports of a queue of words that can also be searched.  All entries carry
one identifier, so the identifier ports are left out. -/
structure IdQueue (width : Nat) where
  State : Type
  init : State
  grant : State → (pop : Bool) → Bool
  empty : State → Bool
  existsGrant : State → (req : Bool) → Bool
  existsO : State → (req : Bool) → (mask data : BitVec width) → Bool
  next : State → (push : Bool) → BitVec width → (pop : Bool) → State

/-- The contract of an associative queue of `capacity` entries. -/
structure IdQueue.Lawful {width : Nat} (Q : IdQueue width) (capacity : Nat)
    (contents : Q.State → List (BitVec width)) : Prop where
  init : contents Q.init = []
  grants : ∀ s pop, (contents s).length < capacity → Q.grant s pop = true
  empty_iff : ∀ s, Q.empty s = true ↔ contents s = []
  existsGrant : ∀ s req, Q.existsGrant s req = req
  exists_iff : ∀ s mask data, Q.existsO s true mask data = true ↔
    ∃ e ∈ contents s, e &&& mask = data &&& mask
  next : ∀ s push x pop, (pop = true → contents s ≠ []) →
    contents (Q.next s push x pop) =
      (if pop then (contents s).tail else contents s) ++ if push && Q.grant s pop then [x] else []

namespace IdQueue

variable {width : Nat}

/-- The queue that stores its list and lets a pop make room for a push. -/
def ofList (width capacity : Nat) : IdQueue width where
  State := List (BitVec width)
  init := []
  grant s pop := decide (s.length < capacity) || pop
  empty s := s.isEmpty
  existsGrant _ req := req
  existsO s req mask data := req && s.any fun e => e &&& mask == data &&& mask
  next s push x pop :=
    (if pop then s.tail else s) ++
      if push && (decide (s.length < capacity) || pop) then [x] else []

theorem ofList_lawful (width capacity : Nat) :
    (ofList width capacity).Lawful capacity (fun s : List (BitVec width) => s) where
  init := rfl
  grants s pop room := by simp [ofList, show s.length < capacity from room]
  empty_iff _ := List.isEmpty_iff
  existsGrant _ _ := rfl
  exists_iff := fun (s : List (BitVec width)) mask data => by simp [ofList]
  next s push x pop _ := by simp [ofList]

end IdQueue

end SnitchCluster.Theory
