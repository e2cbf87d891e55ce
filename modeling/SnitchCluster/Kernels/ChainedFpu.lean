/-
# Kernels.ChainedFpu -- registers that are streams, and registers that are queues

While the stream semantics is enabled, an instruction that names one of the registers `ft0` to `ft2`
takes the next word of a stream, or fills the next slot of one; a register whose bit is set in the
chaining mask is a queue, which an instruction that names it as a destination adds to and one that
names it as an operand takes from.  An instruction that finds nothing to take, or no slot to fill,
gets stuck.

The operations are those of any arithmetic, lawful or not, so that a result tells which operands
went into it; for the same purpose the state keeps a record of what has been taken from the queues,
and of what was computed from it.
-/
import Mathlib.Logic.Function.Basic
import SnitchCluster.Theory.Straight

namespace SnitchCluster.Kernels.ChainedFpu

open Theory.Straight

/-! ## The machine -/

/-! The floating-point registers, by their numbers. -/

def ft (n : Nat) : Nat := if n < 8 then n else n + 20

def fs (n : Nat) : Nat := if n < 2 then n + 8 else n + 16

def fa (n : Nat) : Nat := n + 10

section Machine

variable {V : Type}

/-- What the unit computes. -/
structure Arith (V : Type) where
  mul : V → V → V
  /-- The product of the first two, and the third. -/
  madd : V → V → V → V

structure State (V : Type) where
  reg : Nat → V
  ssr : Bool
  /-- The chaining mask. -/
  sc : BitVec 32
  fifo : Nat → List V
  /-- What the reading streams still deliver. -/
  words : Nat → List V
  /-- Where the writing streams still go. -/
  slots : Nat → List Nat
  /-- The array that is written. -/
  grid : Nat → V
  /-- What has been taken from the queues, and what was computed from it. -/
  pops : List (V × V)

namespace State

variable (s : State V)

def streams (r : Nat) : Bool := s.ssr && r < 3

def chained (r : Nat) : Bool := !s.streams r && s.sc.getLsbD r

/-- The value of an operand. -/
def take (r : Nat) : Option (V × State V) :=
  if s.streams r then
    match s.words r with
    | [] => none
    | v :: rest => some (v, { s with words := Function.update s.words r rest })
  else if s.sc.getLsbD r then
    match s.fifo r with
    | [] => none
    | v :: rest => some (v, { s with fifo := Function.update s.fifo r rest })
  else some (s.reg r, s)

/-- A result. -/
def give (r : Nat) (v : V) : Option (State V) :=
  if s.streams r then
    match s.slots r with
    | [] => none
    | e :: rest =>
      some { s with
        slots := Function.update s.slots r rest, grid := Function.update s.grid e v }
  else if s.sc.getLsbD r then
    some { s with fifo := Function.update s.fifo r (s.fifo r ++ [v]) }
  else some { s with reg := Function.update s.reg r v }

def note (operands : List (Nat × V)) (v : V) : State V :=
  { s with
    pops := s.pops ++ (operands.filter fun operand => s.chained operand.1).map fun operand =>
      (operand.2, v) }

end State

inductive Instr (V : Type)
  | fmul (d a b : Nat)
  | fmadd (d a b c : Nat)
  /-- `v` is what is loaded. -/
  | fld (d : Nat) (v : V)
  | fsd (a : Nat) (e : Nat)
  /-- A job of a reading stream, by the words that it delivers. -/
  | read (dm : Nat) (words : List V)
  /-- A job of a writing stream. -/
  | write (dm : Nat) (slots : List Nat)
  | ssr (enabled : Bool)
  | sc_enable (mask : BitVec 32)
  | sc_disable (mask : BitVec 32)

def exec (ops : Arith V) : Instr V → State V → Option (State V)
  | .fmul d a b, s =>
    (s.take a).bind fun (x, s) => (s.take b).bind fun (y, s) =>
      (s.note [(a, x), (b, y)] (ops.mul x y)).give d (ops.mul x y)
  | .fmadd d a b c, s =>
    (s.take a).bind fun (x, s) => (s.take b).bind fun (y, s) => (s.take c).bind fun (z, s) =>
      (s.note [(a, x), (b, y), (c, z)] (ops.madd x y z)).give d (ops.madd x y z)
  | .fld d v, s => s.give d v
  | .fsd a e, s =>
    (s.take a).bind fun (x, s) => some { s with grid := Function.update s.grid e x }
  | .read dm words, s => some { s with words := Function.update s.words dm (s.words dm ++ words) }
  | .write dm slots, s => some { s with slots := Function.update s.slots dm (s.slots dm ++ slots) }
  | .ssr enabled, s => some { s with ssr := enabled }
  | .sc_enable mask, s => some { s with sc := s.sc ||| mask }
  | .sc_disable mask, s => some { s with sc := s.sc &&& ~~~mask }

/-- A kernel: what it does first, its blocks, and what it does last. -/
structure Kernel (V : Type) where
  prologue : List (Instr V)
  blocks : List (List (Instr V))
  epilogue : List (Instr V)

/-- Before a kernel nothing is enabled and nothing is queued. -/
def start (reg : Nat → V) (grid : Nat → V) : State V where
  reg := reg
  ssr := false
  sc := 0
  fifo _ := []
  words _ := []
  slots _ := []
  grid := grid
  pops := []

/-- No value is left in a queue, and no word in a stream of grid points. -/
structure State.Drained (s : State V) : Prop where
  fifo : ∀ r, s.fifo r = []
  ft0 : s.words 0 = []
  ft1 : s.words 1 = []

/-- The kernel gets through from any registers, is drained behind each block, has consumed all jobs
in the end and leaves `grid'`; `pops` is what it has taken from the queues. -/
def Kernel.Leaves (k : Kernel V) (ops : Arith V) (grid grid' : Nat → V) (pops : List (V × V)) :
    Prop :=
  ∀ reg, ∃ s t last, run (exec ops) k.prologue (start reg grid) = some s ∧
    Passes (exec ops) State.Drained k.blocks s t ∧ run (exec ops) k.epilogue t = some last ∧
    last.grid = grid' ∧ last.pops = pops ∧ (∀ r, last.fifo r = []) ∧ (∀ dm, last.words dm = []) ∧
    ∀ dm, last.slots dm = []

end Machine

/-! ## Within a kernel -/

section View

variable {V : Type} {ops : Arith V} {sc : BitVec 32} {R : Nat → V} {f w0 w1 w2 : List V}
  {sl : List Nat} {g : Nat → V} {l : List (V × V)}

/-- One list, at `r`. -/
def only {α : Type} (r : Nat) (f : List α) (r' : Nat) : List α := if r' = r then f else []

@[simp] theorem only_self {α : Type} (r : Nat) (f : List α) : only r f r = f := if_pos rfl

@[simp] theorem only_nil {α : Type} (r r' : Nat) : only r ([] : List α) r' = [] := ite_self _

@[simp] theorem update_only {α : Type} (r : Nat) (f f' : List α) :
    Function.update (only r f) r f' = only r f' := by
  funext r'
  by_cases here : r' = r <;> simp [only, here]

/-- The words of three streams. -/
def three (w0 w1 w2 : List V) : Nat → List V
  | 0 => w0
  | 1 => w1
  | 2 => w2
  | _ => []

@[simp] theorem three_nil (dm : Nat) : three ([] : List V) [] [] dm = [] := by
  rcases dm with _ | _ | _ | dm <;> rfl

@[simp] theorem update_three_zero (w : List V) :
    Function.update (three w0 w1 w2) 0 w = three w w1 w2 := by
  funext dm
  rcases dm with _ | _ | _ | dm <;> simp [three, Function.update]

@[simp] theorem update_three_one (w : List V) :
    Function.update (three w0 w1 w2) 1 w = three w0 w w2 := by
  funext dm
  rcases dm with _ | _ | _ | dm <;> simp [three, Function.update]

@[simp] theorem update_three_two (w : List V) :
    Function.update (three w0 w1 w2) 2 w = three w0 w1 w := by
  funext dm
  rcases dm with _ | _ | _ | dm <;> simp [three, Function.update]

/-- Three streams, the last of which may write, and a queue in `fa0`. -/
def view (sc : BitVec 32) (R : Nat → V) (f w0 w1 w2 : List V) (sl : List Nat) (g : Nat → V)
    (l : List (V × V)) : State V where
  reg := R
  ssr := true
  sc := sc
  fifo := only (fa 0) f
  words := three w0 w1 w2
  slots := only 2 sl
  grid := g
  pops := l

theorem view_start : { start R g with ssr := true, sc := sc } =
    view sc R [] [] [] [] [] g [] := by
  have queue : (fun _ => []) = only (fa 0) ([] : List V) := funext fun r => (only_nil _ r).symm
  have streams : (fun _ => []) = three ([] : List V) [] [] := funext fun dm => (three_nil dm).symm
  have slots : (fun _ => []) = only 2 ([] : List Nat) := funext fun dm => (only_nil _ dm).symm
  rw [view, ← queue, ← streams, ← slots]
  rfl

/-- The mask that makes `fa0` a queue. -/
def mask : BitVec 32 := 0x400

theorem mask_getLsbD (r : Nat) : mask.getLsbD r = decide (r = fa 0) := by
  have power : mask.toNat = 2 ^ 10 := rfl
  rw [BitVec.getLsbD, power, Nat.testBit_two_pow, fa]
  by_cases here : 10 = r
  · simp [← here]
  · simp [here, Ne.symm here]

/-- A register that is no stream. -/
def Plain (sc : BitVec 32) (r : Nat) : Prop := 3 ≤ r ∧ sc.getLsbD r = false

instance (sc : BitVec 32) (r : Nat) : Decidable (Plain sc r) :=
  inferInstanceAs (Decidable (_ ∧ _))

theorem Plain.streams {r : Nat} (plain : Plain sc r) : ¬r < 3 := Nat.not_lt_of_le plain.1

section Operands

variable {r : Nat} {v : V}

theorem Plain.take (plain : Plain sc r) :
    (view sc R f w0 w1 w2 sl g l).take r = some (R r, view sc R f w0 w1 w2 sl g l) := by
  simp [State.take, State.streams, view, plain.streams, plain.2]

theorem Plain.give (plain : Plain sc r) : (view sc R f w0 w1 w2 sl g l).give r v =
    some (view sc (Function.update R r v) f w0 w1 w2 sl g l) := by
  simp [State.give, State.streams, view, plain.streams, plain.2]

theorem Plain.chained (plain : Plain sc r) :
    (view sc R f w0 w1 w2 sl g l).chained r = false := by
  simp [State.chained, view, plain.2]

theorem Plain.fsd (plain : Plain sc r) {e : Nat} :
    exec ops (.fsd r e) (view sc R f w0 w1 w2 sl g l) =
      some (view sc R f w0 w1 w2 sl (Function.update g e (R r)) l) := by
  rw [exec, plain.take]
  rfl

theorem take_ft0 : (view sc R f (v :: w0) w1 w2 sl g l).take 0 =
    some (v, view sc R f w0 w1 w2 sl g l) := by
  simp [State.take, State.streams, view, three]

theorem take_ft1 : (view sc R f w0 (v :: w1) w2 sl g l).take 1 =
    some (v, view sc R f w0 w1 w2 sl g l) := by
  simp [State.take, State.streams, view, three]

theorem take_ft2 : (view sc R f w0 w1 (v :: w2) sl g l).take 2 =
    some (v, view sc R f w0 w1 w2 sl g l) := by
  simp [State.take, State.streams, view, three]

theorem give_ft2 {e : Nat} : (view sc R f w0 w1 w2 (e :: sl) g l).give 2 v =
    some (view sc R f w0 w1 w2 sl (Function.update g e v) l) := by
  simp [State.give, State.streams, view]

theorem stream_chained (few : r < 3) : (view sc R f w0 w1 w2 sl g l).chained r = false := by
  simp [State.chained, State.streams, view, few]

theorem take_fa0 : (view mask R (v :: f) w0 w1 w2 sl g l).take (fa 0) =
    some (v, view mask R f w0 w1 w2 sl g l) := by
  have stream : ¬fa 0 < 3 := by decide
  simp [State.take, State.streams, view, mask_getLsbD, stream]

theorem give_fa0 : (view mask R f w0 w1 w2 sl g l).give (fa 0) v =
    some (view mask R (f ++ [v]) w0 w1 w2 sl g l) := by
  have stream : ¬fa 0 < 3 := by decide
  simp [State.give, State.streams, view, mask_getLsbD, stream]

theorem fa0_chained : (view mask R f w0 w1 w2 sl g l).chained (fa 0) = true := by
  have stream : ¬fa 0 < 3 := by decide
  simp [State.chained, State.streams, view, mask_getLsbD, stream]

theorem note_view (operands : List (Nat × V)) : (view sc R f w0 w1 w2 sl g l).note operands v =
    view sc R f w0 w1 w2 sl g (l ++ (operands.filter fun operand =>
      (view sc R f w0 w1 w2 sl g l).chained operand.1).map fun operand => (operand.2, v)) := rfl

end Operands

end View

end SnitchCluster.Kernels.ChainedFpu
