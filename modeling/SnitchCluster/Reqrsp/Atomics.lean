/-
# Reqrsp.Atomics -- atomic writes through the bridge

An AXI write may carry an operation: a swap, or one of eight as a load, which returns the old
word, or as a store, which does not.  The bridge has to emit the reqrsp atomic that does the
same to the addressed word.  The translation of the operation knows the loads and the swap
only; a store meets its default, which is no atomic at all, and goes out as a plain write of
the operand.  `atomic_kept_iff` says that this is the only exception.
-/
import SnitchCluster.Reqrsp.FromAxi

namespace SnitchCluster.Reqrsp

open Theory

/-! ## What atomics do to a word -/

/-- The operations of AXI that the reqrsp interface has. -/
inductive AtomOp
  | ADD | CLR | SET | EOR | SMAX | SMIN | UMAX | UMIN
  deriving DecidableEq, Repr

/-- An atomic transaction. -/
inductive Atomic
  | swap
  | load (op : AtomOp)
  | store (op : AtomOp)
  deriving DecidableEq, Repr

section Effects

variable {n : Nat} (old operand : BitVec n)

/-- The new word, as AXI defines it. -/
def AtomOp.effect : AtomOp → BitVec n
  | .ADD => old + operand
  | .CLR => old &&& ~~~operand
  | .SET => old ||| operand
  | .EOR => old ^^^ operand
  | .SMAX => if old.slt operand then operand else old
  | .SMIN => if operand.slt old then operand else old
  | .UMAX => if old.ult operand then operand else old
  | .UMIN => if operand.ult old then operand else old

def Atomic.effect : Atomic → BitVec n
  | .swap => operand
  | .load op => op.effect old operand
  | .store op => op.effect old operand

/-- The new word of a fetch-and-op. -/
def AmoOp.update : AmoOp → BitVec n
  | .AMOSwap => operand
  | .AMOAdd => old + operand
  | .AMOAnd => old &&& operand
  | .AMOOr => old ||| operand
  | .AMOXor => old ^^^ operand
  | .AMOMax => if old.slt operand then operand else old
  | .AMOMaxu => if old.ult operand then operand else old
  | .AMOMin => if operand.slt old then operand else old
  | .AMOMinu => if operand.ult old then operand else old
  | .AMONone | .AMOLR | .AMOSC => old

end Effects

/-- Whether the class asks for the old word on R. -/
def Atomic.reads : Atomic → Bool
  | .swap | .load _ => true
  | .store _ => false

/-- `axi_pkg::ATOP_ATOMICSTORE`, the class without read data. -/
structure AxiStores where
  ATOP_ATOMICSTORE : BitVec 2
  store_silent : ATOP_ATOMICSTORE.getLsbD 1 = false

/-- The encoding of AMBA 5. -/
def AxiStores.amba : AxiStores := ⟨0b01, by decide⟩

namespace AxiPkg

variable (X : AxiPkg) (S : AxiStores)

def opcode : AtomOp → BitVec 3
  | .ADD => X.ATOP_ADD
  | .CLR => X.ATOP_CLR
  | .SET => X.ATOP_SET
  | .EOR => X.ATOP_EOR
  | .SMAX => X.ATOP_SMAX
  | .SMIN => X.ATOP_SMIN
  | .UMAX => X.ATOP_UMAX
  | .UMIN => X.ATOP_UMIN

/-- The `atop` field of an atomic, little-endian. -/
def atop : Atomic → BitVec 6
  | .swap => X.ATOP_ATOMICSWAP
  | .load op => X.load (X.opcode op)
  | .store op => S.ATOP_ATOMICSTORE ++ X.ATOP_LITTLE_END ++ X.opcode op

/-- The fetch-and-op of a load. -/
def loadOp : AtomOp → AmoOp
  | .ADD => .AMOAdd
  | .CLR => .AMOAnd
  | .SET => .AMOOr
  | .EOR => .AMOXor
  | .SMAX => .AMOMax
  | .SMIN => .AMOMin
  | .UMAX => .AMOMaxu
  | .UMIN => .AMOMinu

variable {X S}

theorem toAxiAmo_loadOp (op : AtomOp) : X.toAxiAmo (loadOp op) = X.load (X.opcode op) := by
  cases op <;> rfl

theorem isAmo_loadOp (op : AtomOp) : isAmo (loadOp op) = true := by
  cases op <;> rfl

theorem fromAxiAmo_swap : X.fromAxiAmo (X.atop S .swap) = .AMOSwap := if_pos rfl

theorem fromAxiAmo_load (op : AtomOp) : X.fromAxiAmo (X.atop S (.load op)) = loadOp op := by
  have back := X.fromAxiAmo_toAxiAmo (loadOp op)
  rwa [toAxiAmo_loadOp, isAmo_loadOp, if_pos rfl] at back

theorem store_getLsbD (op : AtomOp) : (X.atop S (.store op)).getLsbD 5 = false := by
  have silent := S.store_silent
  rw [atop, BitVec.getLsbD_append, BitVec.getLsbD_append]
  simpa using silent

/-- The translation has no case for a store. -/
theorem fromAxiAmo_store (op : AtomOp) : X.fromAxiAmo (X.atop S (.store op)) = .AMONone := by
  have silent := store_getLsbD (X := X) (S := S) op
  have noLoad : ∀ o, X.atop S (.store op) ≠ X.load o := by
    intro o same
    rw [same, load_getLsbD] at silent
    cases silent
  have noSwap : X.atop S (.store op) ≠ X.ATOP_ATOMICSWAP := by
    intro same
    rw [same, X.swap_reads] at silent
    cases silent
  rw [fromAxiAmo, if_neg noSwap]
  simp only [noLoad, if_false]

theorem atop_getLsbD (a : Atomic) : (X.atop S a).getLsbD 5 = a.reads := by
  cases a with
  | swap => exact X.swap_reads
  | load op => exact load_getLsbD _
  | store op => exact store_getLsbD op

end AxiPkg

/-! ## Through the bridge -/

namespace FromAxi

variable {P : FromAxiParts} (S : AxiStores)

/-- A write that carries an atomic: one beat, and no exclusive access. -/
structure IsAtomic (aw : P.Aw) (a : Atomic) : Prop where
  atop : aw.atop = P.axi.atop S a
  single : aw.len = 0
  plain : aw.lock = false

/-- The request is an atomic that does to every word of the bus what the transaction asks. -/
structure Performs (aw : P.Aw) (a : Atomic) (w : P.W) (request : P.Req) : Prop where
  addr : request.addr = aw.addr.setWidth _
  size : request.size = aw.size
  strb : request.strb = w.strb
  atomic : isAmo request.amo = true
  noWrite : request.write = false
  effect : ∀ lane n, lane + n ≤ P.DataWidth → ∀ old : BitVec n,
    request.amo.update old (request.data.extractLsb' lane n) =
      a.effect old (w.data.extractLsb' lane n)

/-- What becomes of an atomic in a run, its beat the `k`-th: the request of that number performs
it, and its response goes on R exactly if the class reads, and on B. -/
structure Kept (past : List (Obs P)) (aw : P.Aw) (a : Atomic) (k : Nat) (m : P.Beat) (w : P.W) :
    Prop where
  request : ∃ request, (requests past)[k]? = some request ∧ Performs aw a w request
  reads : ∀ p, (rOf (m, some w) p).isSome = a.reads
  responds : ∀ p, (bOf (m, some w) p).isSome = true

section Beat

variable {S} {aw : P.Aw} {a : Atomic} (atomic : IsAtomic S aw a)

include atomic

/-- Its beat. -/
theorem IsAtomic.beats : writeBeats P aw =
    [{ firstHeld P aw.toArChan aw.atop true with addr := aw.addr.setWidth _, last := true }] := by
  rw [writeBeats, FromAxi.beats, atomic.single]
  rfl

theorem IsAtomic.amo {m : P.Beat} (beat : writeBeats P aw = [m]) :
    m.write = true ∧ m.last = true ∧ m.lock = false ∧ m.atop = P.axi.atop S a ∧
      m.addr = aw.addr.setWidth _ ∧ m.size = aw.size := by
  rw [atomic.beats, List.cons.injEq] at beat
  obtain ⟨rfl, -⟩ := beat
  exact ⟨rfl, rfl, atomic.plain, atomic.atop, rfl, rfl⟩

end Beat

/-- A lane of the inverted operand. -/
theorem extractLsb'_inverted {width lane n : Nat} (data : BitVec width) (fits : lane + n ≤ width) :
    (~~~data).extractLsb' lane n = ~~~data.extractLsb' lane n := by
  ext k within
  simp only [BitVec.getElem_extractLsb', BitVec.getElem_not, BitVec.getLsbD_not]
  have inside : lane + k < width := by omega
  simp [inside]

/-- A swap or a load is performed. -/
theorem performs_of_loads {S : AxiStores} {aw : P.Aw} {a : Atomic} (atomic : IsAtomic S aw a)
    {m : P.Beat} (beat : writeBeats P aw = [m]) (w : P.W) (loads : a.reads = true) :
    Performs aw a w (q m w) := by
  obtain ⟨write, -, lock, atop, addr, size⟩ := atomic.amo beat
  have amo_eq : FromAxi.amo m = P.axi.fromAxiAmo (P.axi.atop S a) := by
    rw [FromAxi.amo, lock, atop]
    rfl
  have data_eq : (q m w).data =
      if P.axi.fromAxiAmo (P.axi.atop S a) = .AMOAnd then ~~~w.data else w.data := by
    rw [q, write, if_pos rfl, data, atop]
  cases a with
  | store op => cases loads
  | swap =>
    rw [AxiPkg.fromAxiAmo_swap] at amo_eq data_eq
    refine ⟨addr, size, by simp [q, write], by simp [q, amo_eq, isAmo], by simp [q, amo_eq], ?_⟩
    intro lane n fits old
    rw [data_eq]
    simp [q, amo_eq, AmoOp.update, Atomic.effect]
  | load op =>
    rw [AxiPkg.fromAxiAmo_load] at amo_eq data_eq
    refine ⟨addr, size, by simp [q, write], ?_, ?_, ?_⟩
    · rw [q, amo_eq, AxiPkg.isAmo_loadOp]
    · cases op <;> simp [q, amo_eq, AxiPkg.loadOp]
    · intro lane n fits old
      rw [data_eq]
      cases op <;>
        simp [q, amo_eq, AxiPkg.loadOp, AmoOp.update, Atomic.effect, AtomOp.effect,
          extractLsb'_inverted, fits]

/-- **An atomic is kept exactly if it is a swap or a load.** -/
theorem atomic_kept_iff {S : AxiStores} {past : List (Obs P)} {s : FromAxi P}
    (reached : (machine P).Reaches steady (init P) past s) {aw : P.Aw} {a : Atomic}
    (atomic : IsAtomic S aw a) {k : Nat} {m : P.Beat} {w : P.W} (beat : writeBeats P aw = [m])
    (there : (order past)[k]? = some (m, some w)) :
    Kept past aw a k m w ↔ ∀ op, a ≠ .store op := by
  have sent : (requests past)[k]? = some (q m w) := by
    obtain ⟨inside, -⟩ := List.getElem?_eq_some_iff.mp there
    rw [(inv_reached reached).requests_eq, List.getElem?_map, fed,
      List.getElem?_append_left inside, there]
    rfl
  obtain ⟨write, last, lock, atop, -, -⟩ := atomic.amo beat
  constructor
  · rintro ⟨⟨request, goes, performs⟩, -, -⟩ op rfl
    rw [sent, Option.some.injEq] at goes
    subst goes
    have none : FromAxi.amo m = .AMONone := by
      rw [FromAxi.amo, lock, atop]
      exact AxiPkg.fromAxiAmo_store op
    have fetches := performs.atomic
    rw [q, none] at fetches
    cases fetches
  · intro loads
    have reads : a.reads = true := by
      cases a with
      | swap => rfl
      | load op => rfl
      | store op => exact absurd rfl (loads op)
    refine ⟨⟨_, sent, performs_of_loads atomic beat w reads⟩, fun p => ?_, fun p => ?_⟩
    · have bit := AxiPkg.atop_getLsbD (X := P.axi) (S := S) a
      simp [rOf, selR, write, atop, bit, reads]
    · simp [bOf, selB, write, last]

/-! ## An atomic addition as a load and as a store -/

/-- The write of 7 to address 9 with this atomic. -/
def writeOf (a : Atomic) : bytes.Aw :=
  { addr := 9, id := 0, len := 0, size := 0, qos := 0, lock := false,
    atop := AxiPkg.amba.atop .amba a }

def operand : bytes.W := { data := 7, strb := 1, last := true }

theorem isAtomic_writeOf (a : Atomic) : IsAtomic (P := bytes) .amba (writeOf a) a := ⟨rfl, rfl, rfl⟩

/-- One cycle with the write. -/
def carrying (a : Atomic) : List (FromAxiIn bytes) :=
  [{ arValid := false, ar := (writeOf a).toArChan, awValid := true, aw := writeOf a, wValid := true,
     w := operand, rReady := true, bReady := true, qReady := true, pValid := false, p := ⟨0, false⟩ }]

/-- The beat of the write. -/
def beatOf (a : Atomic) : bytes.Beat :=
  { firstHeld bytes (writeOf a).toArChan (writeOf a).atop true with addr := 9, last := true }

theorem writeBeats_writeOf (a : Atomic) : writeBeats bytes (writeOf a) = [beatOf a] :=
  (isAtomic_writeOf a).beats

theorem atomic_kept_iff_addition :
    Kept ((machine bytes).trace (init bytes) (carrying (.load .ADD))) (writeOf (.load .ADD))
        (.load .ADD) 0 (beatOf (.load .ADD)) operand ↔
      ∀ op, Atomic.load .ADD ≠ .store op := by
  refine atomic_kept_iff ((machine bytes).reaches_run (init bytes) (carrying (.load .ADD)) ⟨?_, trivial⟩)
    (isAtomic_writeOf (.load .ADD)) (writeBeats_writeOf (.load .ADD)) (by decide)
  refine ⟨?_, ?_, ?_, ?_⟩
  all_goals
    intro x kept
    revert x
    decide

/-- **An atomic addition that returns nothing overwrites the word**: it goes out as a plain
write of its operand. -/
theorem store_degraded :
    ((requests ((machine bytes).trace (init bytes) (carrying (.store .ADD)))).map fun q =>
        (q.write, q.amo, q.data)) = [(true, .AMONone, 7)] ∧
      ¬Kept ((machine bytes).trace (init bytes) (carrying (.store .ADD))) (writeOf (.store .ADD))
        (.store .ADD) 0 (beatOf (.store .ADD)) operand := by
  have sent : (requests ((machine bytes).trace (init bytes) (carrying (.store .ADD))))[0]?.map
      (fun q => q.amo) = some .AMONone := by decide
  refine ⟨by decide, fun kept => ?_⟩
  obtain ⟨request, goes, performs⟩ := kept.request
  rw [goes, Option.map_some, Option.some.injEq] at sent
  have fetches := performs.atomic
  rw [sent] at fetches
  cases fetches

end FromAxi

end SnitchCluster.Reqrsp
