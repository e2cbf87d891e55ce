/-
# Theory.Streams -- arbiters, forks and joins known by contract only

The handshaking cells of the bus components.  An arbiter picks one of its
requesters and keeps to it until it is granted; a fork hands one item to several
takers, each of which may take it in a cycle of its own; a branch does so with the
takers an item selects; a join waits for all of its streams, a selection passes
one of them on; a fall-through buffer shows an item in the cycle it comes.

As for the queues, a contract binds only within the protocol of the cell: a
requester an arbiter has settled on keeps requesting.  Each contract is inhabited.
-/
import Mathlib.Data.List.FinRange
import SnitchCluster.Theory.Cells

namespace SnitchCluster.Theory

/-! ## Arbiters -/

/-- The ports of an arbiter of `n` requesters whose grant may be given ahead of a
request. -/
structure Arbiter (n : Nat) where
  State : Type
  init : State
  valid : State → (req : Fin n → Bool) → Bool
  idx : State → (req : Fin n → Bool) → Fin n
  grant : State → (req : Fin n → Bool) → (granted : Bool) → Fin n → Bool
  next : State → (req : Fin n → Bool) → (granted : Bool) → State

/-- Someone requests. -/
def anyReq {n : Nat} (req : Fin n → Bool) : Bool := (List.finRange n).any req

theorem anyReq_iff {n : Nat} {req : Fin n → Bool} : anyReq req = true ↔ ∃ k, req k = true := by
  simp [anyReq]

/-- The contract of an arbiter; `settled` is the requester it keeps to. -/
structure Arbiter.Lawful {n : Nat} (A : Arbiter n) (settled : A.State → Option (Fin n)) :
    Prop where
  init : settled A.init = none
  valid_eq : ∀ s req, (∀ k, settled s = some k → req k = true) → A.valid s req = anyReq req
  chosen : ∀ s req, (∀ k, settled s = some k → req k = true) → anyReq req = true →
    req (A.idx s req) = true
  keeps : ∀ s req k, settled s = some k → req k = true → A.idx s req = k
  grants : ∀ s req granted, (∀ k, settled s = some k → req k = true) → anyReq req = true →
    ∀ k, A.grant s req granted k = (granted && decide (k = A.idx s req))
  settles : ∀ s req granted, (∀ k, settled s = some k → req k = true) →
    settled (A.next s req granted) =
      if anyReq req && !granted then some (A.idx s req) else none

namespace Arbiter

/-- The arbiter that prefers the lowest index. -/
def lowest (n : Nat) : Arbiter (n + 1) where
  State := Option (Fin (n + 1))
  init := none
  valid _ req := anyReq req
  idx s req := s.getD (((List.finRange (n + 1)).find? req).getD 0)
  grant s req granted k :=
    granted && decide (k = s.getD (((List.finRange (n + 1)).find? req).getD 0))
  next s req granted :=
    if anyReq req && !granted then some (s.getD (((List.finRange (n + 1)).find? req).getD 0))
    else none

theorem lowest_lawful (n : Nat) :
    (lowest n).Lawful (fun s : Option (Fin (n + 1)) => s) where
  init := rfl
  valid_eq _ _ _ := rfl
  chosen := by
    intro s req held requested
    cases s with
    | some k => exact held k rfl
    | none =>
      obtain ⟨k, asks⟩ := anyReq_iff.mp requested
      have found : ((List.finRange (n + 1)).find? req).isSome = true :=
        List.find?_isSome.mpr ⟨k, List.mem_finRange k, asks⟩
      obtain ⟨j, first⟩ := Option.isSome_iff_exists.mp found
      show req (Option.getD none (Option.getD ((List.finRange (n + 1)).find? req) 0)) = true
      rw [first]
      exact List.find?_some first
  keeps := by
    rintro s req k rfl _
    rfl
  grants _ _ _ _ _ _ := rfl
  settles _ _ _ _ := rfl

end Arbiter

/-- An arbiter together with its contract. -/
structure LawfulArbiter (n : Nat) extends Arbiter n where
  settled : State → Option (Fin n)
  lawful : toArbiter.Lawful settled

/-- The reference arbiter. -/
def LawfulArbiter.lowest (n : Nat) : LawfulArbiter (n + 1) where
  toArbiter := Arbiter.lowest n
  settled s := s
  lawful := Arbiter.lowest_lawful n

/-! ## Forks -/

/-- The ports of a fork with `n` takers. -/
structure Fork (n : Nat) where
  State : Type
  init : State
  ready : State → (valid : Bool) → (readyIn : Fin n → Bool) → Bool
  valid : State → (valid : Bool) → Fin n → Bool
  next : State → (valid : Bool) → (readyIn : Fin n → Bool) → State

/-- The contract of a fork; `served` are the takers that have the present item.  The
item is done with when each of them has it. -/
structure Fork.Lawful {n : Nat} (F : Fork n) (served : F.State → Fin n → Bool) : Prop where
  init : ∀ k, served F.init k = false
  valid_eq : ∀ s v k, F.valid s v k = (v && !served s k)
  ready_eq : ∀ s v r, F.ready s v r =
    (v && (List.finRange n).all fun k => served s k || r k)
  next_eq : ∀ s v r k, served (F.next s v r) k =
    if F.ready s v r then false else served s k || (v && r k)

namespace Fork

/-- The fork that stores who is served. -/
def ofFlags (n : Nat) : Fork n where
  State := Fin n → Bool
  init _ := false
  ready s v r := v && (List.finRange n).all fun k => s k || r k
  valid s v k := v && !s k
  next s v r k :=
    if v && (List.finRange n).all fun k => s k || r k then false else s k || (v && r k)

theorem ofFlags_lawful (n : Nat) : (ofFlags n).Lawful (fun s : Fin n → Bool => s) where
  init _ := rfl
  valid_eq _ _ _ := rfl
  ready_eq _ _ _ := rfl
  next_eq _ _ _ _ := rfl

end Fork

/-- A fork together with its contract. -/
structure LawfulFork (n : Nat) extends Fork n where
  served : State → Fin n → Bool
  lawful : toFork.Lawful served

/-- The reference fork. -/
def LawfulFork.ofFlags (n : Nat) : LawfulFork n where
  toFork := Fork.ofFlags n
  served s := s
  lawful := Fork.ofFlags_lawful n

/-! ## Branches -/

/-- The ports of a fork that hands an item to those of `n` takers that a second
stream selects. -/
structure Branch (n : Nat) where
  State : Type
  init : State
  ready : State → (valid : Bool) → (sel : Fin n → Bool) → (selValid : Bool) →
    (readyIn : Fin n → Bool) → Bool
  selReady : State → (valid : Bool) → (sel : Fin n → Bool) → (selValid : Bool) →
    (readyIn : Fin n → Bool) → Bool
  valid : State → (valid : Bool) → (sel : Fin n → Bool) → (selValid : Bool) → Fin n → Bool
  next : State → (valid : Bool) → (sel : Fin n → Bool) → (selValid : Bool) →
    (readyIn : Fin n → Bool) → State

/-- The contract of a branch: a fork for which whoever is not selected is ready. -/
structure Branch.Lawful {n : Nat} (F : Branch n) (served : F.State → Fin n → Bool) : Prop where
  init : ∀ k, served F.init k = false
  valid_eq : ∀ s v sel w k, F.valid s v sel w k = (w && v && sel k && !served s k)
  ready_eq : ∀ s v sel w r, F.ready s v sel w r =
    (w && v && (List.finRange n).all fun k => served s k || (!sel k || r k))
  selReady_eq : ∀ s v sel w r, F.selReady s v sel w r = F.ready s v sel w r
  next_eq : ∀ s v sel w r k, served (F.next s v sel w r) k =
    if F.ready s v sel w r then false else served s k || (w && v && (!sel k || r k))

/-- A branch together with its contract. -/
structure LawfulBranch (n : Nat) extends Branch n where
  served : State → Fin n → Bool
  lawful : toBranch.Lawful served

/-- The branch that stores who is served. -/
def LawfulBranch.ofFlags (n : Nat) : LawfulBranch n where
  State := Fin n → Bool
  init _ := false
  ready s v sel w r := w && v && (List.finRange n).all fun k => s k || (!sel k || r k)
  selReady s v sel w r := w && v && (List.finRange n).all fun k => s k || (!sel k || r k)
  valid s v sel w k := w && v && sel k && !s k
  next s v sel w r k :=
    if w && v && (List.finRange n).all fun k => s k || (!sel k || r k) then false
    else s k || (w && v && (!sel k || r k))
  served s := s
  lawful :=
    { init := fun _ => rfl
      valid_eq := fun _ _ _ _ _ => rfl
      ready_eq := fun _ _ _ _ _ => rfl
      selReady_eq := fun _ _ _ _ _ => rfl
      next_eq := fun _ _ _ _ _ _ => rfl }

/-! ## Selections and joins -/

/-- A selection of one of `n` streams. -/
structure LawfulSelect (n : Nat) where
  valid : (validIn : Fin n → Bool) → Fin n → Bool
  ready : (readyIn : Bool) → Fin n → Fin n → Bool
  data : {α : Type} → (Fin n → α) → Fin n → α
  valid_eq : ∀ v sel, valid v sel = v sel
  ready_eq : ∀ r sel k, ready r sel k = (decide (k = sel) && r)
  data_eq : ∀ {α : Type} (d : Fin n → α) sel, data d sel = d sel

/-- The selection as a function. -/
def LawfulSelect.apply (n : Nat) : LawfulSelect n where
  valid v sel := v sel
  ready r sel k := decide (k = sel) && r
  data d sel := d sel
  valid_eq _ _ := rfl
  ready_eq _ _ _ := rfl
  data_eq _ _ := rfl

/-- A join of `n` streams. -/
structure LawfulJoin (n : Nat) where
  valid : (validIn : Fin n → Bool) → Bool
  ready : (validIn : Fin n → Bool) → (readyIn : Bool) → Fin n → Bool
  valid_eq : ∀ v, valid v = (List.finRange n).all v
  ready_eq : ∀ v r k, ready v r k = (valid v && r)

/-- The join as a conjunction. -/
def LawfulJoin.all (n : Nat) : LawfulJoin n where
  valid v := (List.finRange n).all v
  ready v r _ := (List.finRange n).all v && r
  valid_eq _ := rfl
  ready_eq _ _ _ := rfl

/-! ## Fall-through buffers -/

/-- The ports of a handshaked buffer that shows an item in the cycle it comes. -/
structure Fall (α : Type) where
  State : Type
  init : State
  ready : State → Bool
  valid : State → (validIn : Bool) → Bool
  data : State → (validIn : Bool) → α → α
  next : State → (validIn : Bool) → α → (readyIn : Bool) → State

/-- What a buffer shows: its contents and what comes, if there is room. -/
def Fall.shown {α : Type} (F : Fall α) (contents : F.State → List α) (s : F.State) (v : Bool)
    (x : α) : List α :=
  contents s ++ if v && F.ready s then [x] else []

/-- The contract of a fall-through buffer of `depth` elements. -/
structure Fall.Lawful {α : Type} (F : Fall α) (depth : Nat) (contents : F.State → List α) :
    Prop where
  init : contents F.init = []
  ready_eq : ∀ s, F.ready s = decide ((contents s).length < depth)
  valid_eq : ∀ s v x, F.valid s v = !(F.shown contents s v x).isEmpty
  data_head : ∀ s v x y rest, F.shown contents s v x = y :: rest → F.data s v x = y
  next : ∀ s v x r, contents (F.next s v x r) =
    if r then (F.shown contents s v x).tail else F.shown contents s v x

/-- A fall-through buffer together with its contract. -/
structure LawfulFall (α : Type) (depth : Nat) extends Fall α where
  contents : State → List α
  lawful : toFall.Lawful depth contents

/-- The buffer that stores its list. -/
def LawfulFall.ofList (α : Type) (depth : Nat) : LawfulFall α depth where
  State := List α
  init := []
  ready s := decide (s.length < depth)
  valid s v := !s.isEmpty || (v && decide (s.length < depth))
  data s _ x := s.headD x
  next s v x r :=
    let shown := s ++ if v && decide (s.length < depth) then [x] else []
    if r then shown.tail else shown
  contents s := s
  lawful :=
    { init := rfl
      ready_eq := fun _ => rfl
      valid_eq := by
        intro s v x
        unfold Fall.shown
        show (!s.isEmpty || (v && decide (s.length < depth))) =
          !(s ++ if v && decide (s.length < depth) then [x] else []).isEmpty
        cases s with
        | nil => cases v && decide (([] : List α).length < depth) <;> rfl
        | cons y s => rfl
      data_head := by
        intro s v x y rest shown
        unfold Fall.shown at shown
        cases s with
        | cons z s => exact (List.cons.inj shown).1
        | nil =>
          cases comes : v && decide (([] : List α).length < depth) with
          | false =>
            rw [comes] at shown
            exact absurd shown.symm (List.cons_ne_nil _ _)
          | true =>
            rw [comes] at shown
            exact (List.cons.inj shown).1
      next := fun _ _ _ _ => rfl }

end SnitchCluster.Theory
