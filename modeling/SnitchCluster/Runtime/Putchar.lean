/-
# Runtime.Putchar -- printing from many harts through one host

`_putchar` collects the characters of a hart in the hart's own buffer.  A buffer that is
full or ends a line is handed to the host: the hart fills in a write call, takes the
mutex, leaves the call's address in `tohost`, polls `fromhost` for the answer, clears it
and gives the mutex back.  The host takes a call out of `tohost`, writes what the buffer
holds, and answers through `fromhost` when that is clear.

Harts and host move in any order.  `Inv` follows the exchange of the owner of the mutex
stage by stage (`Exchange`) and accounts for every character: it is on `stdout`, or in the
buffer of its hart, and never both.
-/
import SnitchCluster.Runtime.Mutex

namespace SnitchCluster.Runtime.Putchar

open Theory
open Mutex hiding State start

/-- `1024 - sizeof(size_t)`. -/
def PUTC_BUFFER_LEN : Nat := 1020

def newline : BitVec 8 := 10

/-- Where a hart is in `_putchar`. -/
inductive Pc
  | ready
  | header
  | acquire
  | tohost
  | poll
  | clear
  | release
  | resetSize
  deriving DecidableEq, Repr

/-- `syscall_mem`, whose word 2 is the address of the hart's own data. -/
structure SyscallMem where
  number : Nat
  fd : Nat
  length : Nat
  deriving DecidableEq, Repr

/-- A hart, its `putc_buffer`, and the characters it has put so far. -/
structure Hart where
  pc : Pc
  place : Place
  size : Nat
  data : Nat → BitVec 8
  syscallMem : SyscallMem
  put : List (BitVec 8)

structure Shared (ι : Type) where
  mtx : BitVec 32
  /-- Whose `syscall_mem`, if any. -/
  tohost : Option ι
  fromhost : Bool

/-- The harts, the words they share with the host, the answers the host owes, and what it has
written for whom. -/
structure State (ι : Type) where
  harts : ι → Hart
  shared : Shared ι
  pending : Nat
  stdout : List (ι × List (BitVec 8))

def Hart.contents (h : Hart) : List (BitVec 8) := (List.range h.size).map h.data

/-- The call of `_putchar` up to its `if`. -/
def Hart.putc (c : BitVec 8) (h : Hart) : Option Hart :=
  if h.pc = .ready then
    some { h with
      data := Function.update h.data h.size c
      size := h.size + 1
      put := h.put ++ [c]
      pc := if h.size + 1 = PUTC_BUFFER_LEN ∨ c = newline then .header else .ready }
  else none

variable {ι : Type}

/-- The next access behind the `if`. -/
def Hart.advance (i : ι) (sh : Shared ι) (h : Hart) : Option (Hart × Shared ι) :=
  match h.pc with
  | .ready => none
  | .header =>
      (h.place.step sh.mtx (.call snrtMutexAcquire)).map fun (mtx, place) =>
        ({ h with place, syscallMem := ⟨64, 1, h.size⟩, pc := .acquire }, { sh with mtx })
  | .acquire =>
      (h.place.step sh.mtx .acquire).map fun (mtx, place) =>
        ({ h with place, pc := if place = .inside then .tohost else .acquire }, { sh with mtx })
  | .tohost => some ({ h with pc := .poll }, { sh with tohost := some i })
  | .poll => some ({ h with pc := if sh.fromhost then .clear else .poll }, sh)
  | .clear => some ({ h with pc := .release }, { sh with fromhost := false })
  | .release =>
      (h.place.step sh.mtx .release).map fun (mtx, place) =>
        ({ h with place, pc := .resetSize }, { sh with mtx })
  | .resetSize => some ({ h with size := 0, pc := .ready }, sh)

inductive Label (ι : Type)
  | put (i : ι) (c : BitVec 8)
  | advance (i : ι)
  | serve
  | answer

variable [DecidableEq ι]

/-- Harts that print and the host that serves them. -/
def putchar : Interleaving (State ι) (Label ι) where
  step
    | .put i c, s =>
        ((s.harts i).putc c).map fun h => { s with harts := Function.update s.harts i h }
    | .advance i, s =>
        ((s.harts i).advance i s.shared).map fun (h, shared) =>
          { s with harts := Function.update s.harts i h, shared }
    | .serve, s => s.shared.tohost.map fun i =>
        let h := s.harts i
        let call := h.syscallMem
        let output := (List.range call.length).map h.data
        { s with
          shared := { s.shared with tohost := none }
          pending := s.pending + 1
          stdout :=
            if call.number = 64 ∧ call.fd = 1 then s.stdout ++ [(i, output)] else s.stdout }
    | .answer, s =>
        if s.pending = 0 ∨ s.shared.fromhost then none
        else some { s with pending := s.pending - 1, shared := { s.shared with fromhost := true } }

def start : State ι where
  harts _ :=
    { pc := .ready, place := .away, size := 0, data := fun _ => 0, syscallMem := ⟨0, 0, 0⟩
      put := [] }
  shared := { mtx := 0, tohost := none, fromhost := false }
  pending := 0
  stdout := []

/-- What the host has written for a hart. -/
def written (i : ι) (stdout : List (ι × List (BitVec 8))) : List (BitVec 8) :=
  (stdout.filter fun x => x.1 = i).flatMap Prod.snd

/-! ## One hart -/

/-- A buffer that is handed over: it ends its line or is full. -/
structure Line (l : List (BitVec 8)) : Prop where
  inner : newline ∉ l.dropLast
  fits : l.length ≤ PUTC_BUFFER_LEN
  ended : l.length = PUTC_BUFFER_LEN ∨ l.getLast? = some newline

/-- The buffer may be on `stdout`. -/
def Pc.Sent : Pc → Bool
  | .poll | .clear | .release | .resetSize => true
  | _ => false

/-- What a hart has in its buffer and at the mutex. -/
def Hart.Local (h : Hart) : Prop :=
  match h.pc with
  | .ready => h.place = .away ∧ newline ∉ h.contents ∧ h.size < PUTC_BUFFER_LEN
  | .header => h.place = .away ∧ Line h.contents
  | .acquire => (∃ a, h.place = .trying a) ∧ Line h.contents ∧ h.syscallMem = ⟨64, 1, h.size⟩
  | .resetSize => h.place = .away
  | _ => h.place = .inside ∧ Line h.contents ∧ h.syscallMem = ⟨64, 1, h.size⟩

/-- What is in the buffer only. -/
def Hart.unsent (tohost : Option ι) (i : ι) (h : Hart) : List (BitVec 8) :=
  if h.pc.Sent ∧ tohost ≠ some i then [] else h.contents

theorem Hart.putc_eq {h h' : Hart} {c : BitVec 8} (called : h.putc c = some h') (inv : h.Local) :
    h'.Local ∧ h'.place = h.place ∧ h'.pc.Sent = false ∧ h.pc = .ready ∧
      h'.contents = h.contents ++ [c] ∧ h'.put = h.put ++ [c] := by
  unfold Hart.putc at called
  split at called
  · next ready =>
      rw [Hart.Local, ready] at inv
      obtain ⟨away, clean, room⟩ := inv
      have grown : (List.range (h.size + 1)).map (Function.update h.data h.size c) =
          h.contents ++ [c] := by
        rw [List.range_succ, List.map_append, List.map_singleton, Function.update_self]
        congr 1
        refine List.map_congr_left fun k below => Function.update_of_ne ?_ ..
        exact (List.mem_range.mp below).ne
      have length : h.contents.length = h.size := by simp [Hart.contents]
      cases called
      by_cases full : h.size + 1 = PUTC_BUFFER_LEN ∨ c = newline
      · refine ⟨?_, rfl, by simp [full, Pc.Sent], ready, grown, rfl⟩
        simp only [Hart.Local, if_pos full]
        refine ⟨away, ?_⟩
        simp only [Hart.contents] at grown ⊢
        rw [grown]
        refine ⟨by rw [List.dropLast_concat]; exact clean, by simp; omega, ?_⟩
        rcases full with full | rfl
        · exact .inl (by simp [full])
        · exact .inr (by simp)
      · refine ⟨?_, rfl, by simp [full, Pc.Sent], ready, grown, rfl⟩
        simp only [Hart.Local, if_neg full]
        refine ⟨away, ?_, by omega⟩
        simp only [Hart.contents] at grown ⊢
        rw [grown, List.mem_append, List.mem_singleton]
        rintro (inside | rfl)
        · exact clean inside
        · exact full (.inr rfl)
  · cases called

/-! ## The exchange with the host -/

/-- How far the owner of the mutex is with the host. -/
inductive Exchange (i : ι) : Pc → Option ι → Nat → Bool → Prop
  | quiet {pc : Pc} (apart : pc ≠ .poll ∧ pc ≠ .clear) : Exchange i pc none 0 false
  | asked : Exchange i .poll (some i) 0 false
  | served : Exchange i .poll none 1 false
  | answered : Exchange i .poll none 0 true
  | seen : Exchange i .clear none 0 true

structure Inv (s : State ι) (owner : Option ι) : Prop where
  guard : Guarded owner s.shared.mtx fun i => (s.harts i).place
  hart : ∀ i, (s.harts i).Local
  exchange : ∀ i, owner = some i →
    Exchange i (s.harts i).pc s.shared.tohost s.pending s.shared.fromhost
  idle : owner = none → s.shared.tohost = none ∧ s.pending = 0 ∧ s.shared.fromhost = false
  stream : ∀ i, written i s.stdout ++ (s.harts i).unsent s.shared.tohost i = (s.harts i).put
  lines : ∀ x ∈ s.stdout, Line x.2

theorem written_append (i j : ι) (stdout : List (ι × List (BitVec 8))) (l : List (BitVec 8)) :
    written j (stdout ++ [(i, l)]) = written j stdout ++ if i = j then l else [] := by
  rw [written, List.filter_append, List.flatMap_append, ← written]
  by_cases same : i = j <;> simp [same]

theorem start_inv : Inv (start : State ι) none where
  guard := guarded_start
  hart _ := ⟨rfl, by simp [start, Hart.contents], by simp [start, PUTC_BUFFER_LEN]⟩
  exchange _ none := by cases none
  idle _ := ⟨rfl, rfl, rfl⟩
  stream _ := rfl
  lines _ inside := by cases inside

namespace Inv

variable {s : State ι} {owner owner' : Option ι}

/-- A hart behind its acquire owns the mutex. -/
theorem owns (inv : Inv s owner) {i : ι} (inside : (s.harts i).place = .inside) :
    owner = some i :=
  (inv.guard.owns i).mp (.inl inside)

/-- Whoever is asked for polls. -/
theorem asks (inv : Inv s owner) {i : ι} (asked : s.shared.tohost = some i) :
    owner = some i ∧ (s.harts i).pc = .poll := by
  cases owned : owner with
  | none => rw [(inv.idle owned).1] at asked; cases asked
  | some j =>
    have exchange := inv.exchange j owned
    rw [asked] at exchange
    generalize pc : (s.harts j).pc = now at exchange
    generalize s.pending = pending, s.shared.fromhost = fromhost at exchange
    cases exchange
    exact ⟨rfl, pc⟩

/-- The host is idle while the owner is not at the exchange. -/
theorem quiet (inv : Inv s owner) {i : ι} (mine : owner = some i)
    (apart : (s.harts i).pc ≠ .poll ∧ (s.harts i).pc ≠ .clear) :
    s.shared.tohost = none ∧ s.pending = 0 ∧ s.shared.fromhost = false := by
  have exchange := inv.exchange i mine
  generalize (s.harts i).pc = now at exchange apart
  generalize s.shared.tohost = tohost, s.pending = pending, s.shared.fromhost = fromhost
    at exchange
  cases exchange <;> simp_all

/-- **One hart moves**, with what it leaves for the host. -/
theorem move (inv : Inv s owner) {i : ι} {h : Hart} {sh : Shared ι} (local' : h.Local)
    (guard : Guarded owner' sh.mtx (Function.update (fun j => (s.harts j).place) i h.place))
    (exchange : ∀ j, owner' = some j →
      Exchange j (Function.update s.harts i h j).pc sh.tohost s.pending sh.fromhost)
    (idle : owner' = none → sh.tohost = none ∧ s.pending = 0 ∧ sh.fromhost = false)
    (stream : written i s.stdout ++ h.unsent sh.tohost i = h.put)
    (others : ∀ j, j ≠ i → (sh.tohost = some j ↔ s.shared.tohost = some j)) :
    Inv { s with harts := Function.update s.harts i h, shared := sh } owner' where
  guard := by
    have moved : (fun j => (Function.update s.harts i h j).place) =
        Function.update (fun j => (s.harts j).place) i h.place :=
      Function.comp_update Hart.place s.harts i h
    rwa [moved]
  hart := forall_update (fun _ (h : Hart) => h.Local) local' fun j _ => inv.hart j
  exchange := exchange
  idle := idle
  stream := by
    refine forall_update (fun j (h : Hart) =>
      written j s.stdout ++ h.unsent sh.tohost j = h.put) stream fun j apart => ?_
    simp only [Hart.unsent, ne_eq, others j apart]
    exact inv.stream j
  lines := inv.lines

/-- A hart that keeps its place and does not touch what it shares with the host. -/
theorem alone (inv : Inv s owner) {i : ι} {h : Hart} (local' : h.Local)
    (place : h.place = (s.harts i).place)
    (exchange : owner = some i →
      Exchange i h.pc s.shared.tohost s.pending s.shared.fromhost)
    (stream : written i s.stdout ++ h.unsent s.shared.tohost i = h.put) :
    Inv { s with harts := Function.update s.harts i h } owner := by
  refine inv.move local' ?_ ?_ inv.idle stream fun _ _ => .rfl
  · rw [place, Function.update_eq_self i fun j => (s.harts j).place]
    exact inv.guard
  · intro j owned
    by_cases here : j = i
    · subst here
      rw [Function.update_self]
      exact exchange owned
    · rw [Function.update_of_ne here]
      exact inv.exchange j owned

theorem put (inv : Inv s owner) {i : ι} {c : BitVec 8} {h : Hart}
    (called : (s.harts i).putc c = some h) :
    Inv { s with harts := Function.update s.harts i h } owner := by
  obtain ⟨local', place, kept, ready, contents, put⟩ := Hart.putc_eq called (inv.hart i)
  have home := inv.hart i
  rw [Hart.Local, ready] at home
  refine inv.alone local' place (fun owned => ?_) ?_
  · have owns := (inv.guard.owns i).mpr owned
    simp [Place.Owns, home.1] at owns
  · have stream := inv.stream i
    rw [Hart.unsent, ready, if_neg (by simp [Pc.Sent])] at stream
    rw [Hart.unsent, kept, if_neg (by simp), contents, put, ← stream, List.append_assoc]

/-- The owner moves with what it shares with the host, and keeps the mutex. -/
theorem hands (inv : Inv s owner) {i : ι} {h : Hart} {sh : Shared ι} (mine : owner = some i)
    (local' : h.Local) (place : h.place = (s.harts i).place) (mtx : sh.mtx = s.shared.mtx)
    (exchange : Exchange i h.pc sh.tohost s.pending sh.fromhost)
    (stream : written i s.stdout ++ h.unsent sh.tohost i = h.put)
    (others : ∀ j, j ≠ i → (sh.tohost = some j ↔ s.shared.tohost = some j)) :
    Inv { s with harts := Function.update s.harts i h, shared := sh } owner := by
  refine inv.move local' ?_ (fun j owned => ?_) (fun none => ?_) stream others
  · rw [place, mtx, Function.update_eq_self i fun j => (s.harts j).place]
    exact inv.guard
  · obtain rfl := Option.some.inj (mine.symm.trans owned)
    rwa [Function.update_self]
  · cases mine.symm.trans none

/-- An instruction of the mutex, between two places that hand nothing to the host. -/
theorem locks (inv : Inv s owner) {i : ι} {m : Move} {mtx : BitVec 32} {place : Place} {h : Hart}
    (stepped : (s.harts i).place.step s.shared.mtx m = some (mtx, place)) (moved : h.place = place)
    (local' : h.Local) (away : h.pc ≠ .poll ∧ h.pc ≠ .clear)
    (quiet : owner = some i → (s.harts i).pc ≠ .poll ∧ (s.harts i).pc ≠ .clear)
    (stream : written i s.stdout ++ h.unsent s.shared.tohost i = h.put) :
    ∃ owner', Inv { s with
      harts := Function.update s.harts i h
      shared := { s.shared with mtx } } owner' := by
  subst moved
  obtain ⟨owner', guard, moves⟩ := inv.guard.step stepped
  -- the host is idle whenever the lock changes hands
  have free : owner = none ∨ owner = some i →
      s.shared.tohost = none ∧ s.pending = 0 ∧ s.shared.fromhost = false := by
    rintro (none | mine)
    · exact inv.idle none
    · exact inv.quiet mine (quiet mine)
  have here : owner = none ∨ owner = some i →
      Exchange i h.pc s.shared.tohost s.pending s.shared.fromhost := by
    intro mine
    obtain ⟨tohost, pending, fromhost⟩ := free mine
    rw [tohost, pending, fromhost]
    exact .quiet away
  refine ⟨owner', inv.move local' guard (fun j owned => ?_) (fun none => ?_) stream
    fun _ _ => .rfl⟩
  · by_cases at' : j = i
    · subst at'
      rw [Function.update_self]
      rcases moves with rfl | taken
      · exact here (.inr owned)
      · exact here ((lock_step taken).imp And.left And.left)
    · rw [Function.update_of_ne at']
      rcases moves with rfl | taken
      · exact inv.exchange j owned
      · obtain ⟨-, rfl⟩ | ⟨-, rfl⟩ := lock_step taken
        · exact absurd (Option.some.inj owned).symm at'
        · cases owned
  · rcases moves with rfl | taken
    · exact inv.idle none
    · exact free ((lock_step taken).imp And.left And.left)

theorem advance (inv : Inv s owner) {i : ι} {h : Hart} {sh : Shared ι}
    (taken : (s.harts i).advance i s.shared = some (h, sh)) :
    ∃ owner', Inv { s with harts := Function.update s.harts i h, shared := sh } owner' := by
  have home := inv.hart i
  have stream := inv.stream i
  rw [Hart.unsent] at stream
  unfold Hart.advance at taken
  rw [Hart.Local] at home
  cases pc : (s.harts i).pc <;> simp only [pc] at taken home <;> rw [pc] at stream
  case ready => cases taken
  case header =>
    obtain ⟨⟨mtx, place⟩, stepped, moved⟩ := Option.map_eq_some_iff.mp taken
    cases moved
    obtain ⟨away, line⟩ := home
    rw [away] at stepped
    cases stepped
    exact inv.locks (m := .call snrtMutexAcquire) (by rw [away]; rfl) rfl
      ⟨⟨_, rfl⟩, line, rfl⟩ (by simp) (by simp [pc]) stream
  case acquire =>
    obtain ⟨⟨mtx, place⟩, stepped, moved⟩ := Option.map_eq_some_iff.mp taken
    cases moved
    obtain ⟨⟨a, trying⟩, line, call⟩ := home
    by_cases inside : place = .inside
    · refine inv.locks stepped rfl ?_ (by simp [inside]) (by simp [pc]) ?_
      · simp only [Hart.Local, if_pos inside]
        exact ⟨inside, line, call⟩
      · rw [Hart.unsent, if_pos inside]
        exact stream
    · refine inv.locks stepped rfl ?_ (by simp [inside]) (by simp [pc]) ?_
      · simp only [Hart.Local, if_neg inside]
        refine ⟨?_, line, call⟩
        rw [trying] at stepped
        cases place with
        | inside => exact absurd rfl inside
        | trying a => exact ⟨a, rfl⟩
        | away => exact absurd stepped (Place.step_trying_ne_away a)
      · rw [Hart.unsent, if_neg inside]
        exact stream
  case tohost =>
    cases taken
    obtain ⟨inside, line, call⟩ := home
    have mine := inv.owns inside
    obtain ⟨tohost, pending, fromhost⟩ := inv.quiet mine (by simp [pc])
    refine ⟨owner, inv.hands mine ⟨inside, line, call⟩ rfl rfl ?_ ?_ fun j apart => ?_⟩
    · rw [pending, fromhost]
      exact .asked
    · rw [Hart.unsent, if_neg (by simp)]
      exact stream
    · simp [tohost, Ne.symm apart]
  case poll =>
    cases taken
    cases answered : s.shared.fromhost with
    | false =>
      refine ⟨owner, inv.alone home rfl (fun mine => ?_) stream⟩
      have exchange := inv.exchange i mine
      rwa [pc] at exchange
    | true =>
      refine ⟨owner, inv.alone home rfl (fun mine => ?_) stream⟩
      have exchange := inv.exchange i mine
      rw [pc, answered] at exchange
      generalize s.shared.tohost = tohost, s.pending = pending at exchange
      cases exchange
      rw [answered]
      exact .seen
  case clear =>
    cases taken
    obtain ⟨inside, line, call⟩ := home
    have mine := inv.owns inside
    refine ⟨owner, inv.hands mine ⟨inside, line, call⟩ rfl rfl ?_ stream fun _ _ => .rfl⟩
    have exchange := inv.exchange i mine
    rw [pc] at exchange
    generalize s.shared.tohost = tohost, s.pending = pending, s.shared.fromhost = fromhost
      at exchange
    cases exchange with
    | quiet apart => exact absurd rfl apart.2
    | seen => exact .quiet (by simp)
  case release =>
    obtain ⟨⟨mtx, place⟩, stepped, moved⟩ := Option.map_eq_some_iff.mp taken
    cases moved
    have out := stepped
    rw [home.1] at out
    cases out
    exact inv.locks stepped rfl rfl (by simp) (by simp [pc]) stream
  case resetSize =>
    cases taken
    have out : ¬(owner = some i) := fun mine => by
      have owns := (inv.guard.owns i).mpr mine
      simp [Place.Owns, home] at owns
    have apart : s.shared.tohost ≠ some i := fun asked => out (inv.asks asked).1
    rw [if_pos ⟨rfl, apart⟩] at stream
    refine ⟨owner, inv.alone ⟨home, ?_, ?_⟩ rfl (fun mine => absurd mine out) ?_⟩
    · simp [Hart.contents]
    · simp [PUTC_BUFFER_LEN]
    · rw [Hart.unsent, if_neg (by simp [Pc.Sent])]
      exact stream

/-- The host writes what the buffer of the owner holds. -/
theorem serve (inv : Inv s owner) {t : State ι} (taken : putchar.step .serve s = some t) :
    Inv t owner := by
  obtain ⟨i, asked, served⟩ := Option.map_eq_some_iff.mp taken
  obtain ⟨mine, pc⟩ := inv.asks asked
  have home := inv.hart i
  rw [Hart.Local, pc] at home
  obtain ⟨-, line, call⟩ := home
  have exchange := inv.exchange i mine
  rw [pc, asked] at exchange
  simp only [call, and_self, if_true] at served
  subst served
  refine ⟨inv.guard, inv.hart, fun j owned => ?_, fun none => ?_, fun j => ?_, fun x inside => ?_⟩
  · obtain rfl := Option.some.inj (mine.symm.trans owned)
    rw [pc]
    generalize s.pending = pending, s.shared.fromhost = fromhost at exchange ⊢
    cases exchange
    exact .served
  · rw [none] at mine
    cases mine
  · have stream := inv.stream j
    rw [Hart.unsent, asked] at stream
    rw [written_append, Hart.unsent]
    by_cases here : i = j
    · subst here
      rw [if_neg (by simp)] at stream
      rw [if_pos rfl, pc, if_pos ⟨rfl, by simp⟩, List.append_nil]
      exact stream
    · rw [if_neg here, List.append_nil]
      simpa [here] using stream
  · rcases List.mem_append.mp inside with before | new
    · exact inv.lines x before
    · rw [List.mem_singleton.mp new]
      exact line

theorem answer (inv : Inv s owner) {t : State ι} (taken : putchar.step .answer s = some t) :
    Inv t owner := by
  simp only [putchar] at taken
  split at taken
  · cases taken
  · next owed =>
      cases taken
      refine ⟨inv.guard, inv.hart, fun i mine => ?_, fun none => ?_, inv.stream, inv.lines⟩
      · have exchange := inv.exchange i mine
        change Exchange i (s.harts i).pc s.shared.tohost (s.pending - 1) true
        generalize (s.harts i).pc = now, s.shared.tohost = tohost at exchange ⊢
        generalize s.pending = pending, s.shared.fromhost = fromhost at exchange owed ⊢
        cases exchange <;> simp at owed
        exact .answered
      · exact absurd (.inl (inv.idle none).2.1) owed

end Inv

/-! ## Runs -/

theorem inv_reachable {s : State ι} (reached : putchar.Reachable start s) :
    ∃ owner, Inv s owner := by
  refine reached.invariant (fun s => ∃ owner, Inv s owner) ⟨none, start_inv⟩ ?_
  rintro s l t ⟨owner, inv⟩ - taken
  cases l with
  | put i c =>
    obtain ⟨h, called, rfl⟩ := Option.map_eq_some_iff.mp taken
    exact ⟨owner, inv.put called⟩
  | advance i =>
    obtain ⟨⟨h, sh⟩, advanced, rfl⟩ := Option.map_eq_some_iff.mp taken
    exact inv.advance advanced
  | serve => exact ⟨owner, inv.serve taken⟩
  | answer => exact ⟨owner, inv.answer taken⟩

/-- **Nothing that is put is lost, doubled or torn.**  In whatever order harts and host move,
`stdout` is made of whole buffers, each of one hart, that end their line or are full; what it
holds of a hart is what the hart has put, up to the line that is still in its buffer. -/
theorem putchar_streams {s : State ι} (reached : putchar.Reachable start s) :
    (∀ x ∈ s.stdout, Line x.2) ∧
      ∀ i, written i s.stdout ++ (s.harts i).unsent s.shared.tohost i = (s.harts i).put ∧
        ((s.harts i).pc = .ready → newline ∉ (s.harts i).unsent s.shared.tohost i) := by
  obtain ⟨owner, inv⟩ := inv_reachable reached
  refine ⟨inv.lines, fun i => ⟨inv.stream i, fun ready => ?_⟩⟩
  have home := inv.hart i
  rw [Hart.Local, ready] at home
  rw [Hart.unsent, ready, if_neg (by simp [Pc.Sent])]
  exact home.2.1

/-- Two harts end their lines at once; the host has written the first. -/
theorem putchar_streams_two : ∃ s : State Bool,
    s.stdout = [(true, [97, 10])] ∧ (∀ x ∈ s.stdout, Line x.2) ∧
      ∀ i, written i s.stdout ++ (s.harts i).unsent s.shared.tohost i = (s.harts i).put ∧
        ((s.harts i).pc = .ready → newline ∉ (s.harts i).unsent s.shared.tohost i) :=
  ⟨_, rfl, putchar_streams (putchar.reachable_run [.put false 98, .put true 97,
    .put true 10, .put false 10, .advance false, .advance true, .advance true, .advance false,
    .advance true, .advance true, .serve] rfl)⟩

end SnitchCluster.Runtime.Putchar
