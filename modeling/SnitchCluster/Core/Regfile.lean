/-
# Core.Regfile -- three register files

The register file of the core comes in three versions, for flip-flops, latches and FPGAs, with
any number of read and write ports.  The first keeps one array.  The second keeps one memory for
each write port and, for each register, the port that wrote it last.  The third samples the write
data of all ports and opens the latches of the registers that are written.

Of ports that write one register in one cycle the highest wins; so it is in the first two.  The
latches of a register take the data of the last port, whichever ports write it.
`interchangeable_iff` says when the three still read alike: where the two are the same data, and
always with one write port.
-/
import Mathlib.Data.List.FinRange
import Mathlib.Data.Nat.Log
import SnitchCluster.Theory.CaseZ
import SnitchCluster.Theory.Cells
import SnitchCluster.Theory.Clocked

namespace SnitchCluster.Core

open Theory

/-- The parameters of `snitch_regfile`. -/
structure RegfileCfg where
  DataWidth : Nat
  NrReadPorts : Nat
  NrWritePorts : Nat
  ZeroRegZero : Bool
  AddrWidth : Nat
  reads : 1 ≤ NrReadPorts
  writes : 1 ≤ NrWritePorts
  addr : 1 ≤ AddrWidth ∧ AddrWidth ≤ 5

namespace RegfileCfg

variable (C : RegfileCfg)

abbrev Word := BitVec C.DataWidth

abbrev Addr := BitVec C.AddrWidth

/-- The width of a port number. -/
def LogNrWritePorts : Nat := if C.NrWritePorts = 1 then 1 else Nat.clog 2 C.NrWritePorts

/-- The last write port. -/
def lastPort : Fin C.NrWritePorts := ⟨C.NrWritePorts - 1, Nat.sub_lt C.writes Nat.one_pos⟩

end RegfileCfg

variable {C : RegfileCfg}

/-- The ports in a cycle. -/
structure RegfileIn (C : RegfileCfg) where
  raddr : Fin C.NrReadPorts → C.Addr
  waddr : Fin C.NrWritePorts → C.Addr
  wdata : Fin C.NrWritePorts → C.Word
  we : Fin C.NrWritePorts → Bool

/-- `we_dec[j][a]`, of addresses as the ports have them. -/
def weDec {width : Nat} (waddr : Fin C.NrWritePorts → BitVec width)
    (we : Fin C.NrWritePorts → Bool) (j : Fin C.NrWritePorts) (a : Nat) : Bool :=
  if (waddr j).toNat = a then we j else false

/-- An assignment for each port in turn: the last one that is made stays. -/
def perPort {β : Type} (guard : Fin C.NrWritePorts → Bool) (value : Fin C.NrWritePorts → β)
    (old : β) : β :=
  lastWrite ((List.finRange C.NrWritePorts).map fun j => (guard j, value j)) old

/-! ## The versions -/

/-- `snitch_regfile` of flip-flops. -/
def regfileFf (C : RegfileCfg) :
    Machine (Nat → C.Word) (RegfileIn C) (Fin C.NrReadPorts → C.Word) where
  obs mem i k := mem (i.raddr k).toNat
  next mem i a :=
    if C.ZeroRegZero && a == 0 then 0
    else perPort (fun j => weDec i.waddr i.we j a) i.wdata (mem a)

/-- The memories and the selectors. -/
structure FpgaRegs (C : RegfileCfg) where
  mem : Nat → Nat → C.Word
  memBlockSel : Nat → BitVec C.LogNrWritePorts

/-- An address at a port of five bits. -/
def RegfileCfg.port (a : C.Addr) : BitVec 5 := a.setWidth 5

/-- `snitch_regfile` for FPGAs. -/
def regfileFpga (C : RegfileCfg) :
    Machine (FpgaRegs C) (RegfileIn C) (Fin C.NrReadPorts → C.Word) where
  obs s i k :=
    let raddr := C.port (i.raddr k)
    if C.ZeroRegZero && raddr == 0 then 0 else s.mem (s.memBlockSel raddr.toNat).toNat raddr.toNat
  next s i :=
    { mem := fun block a =>
        if h : block < C.NrWritePorts then
          if i.we ⟨block, h⟩ && (C.port (i.waddr ⟨block, h⟩)).toNat == a then i.wdata ⟨block, h⟩
          else s.mem block a
        else s.mem block a
      memBlockSel := fun a =>
        perPort (fun j => weDec (fun j => C.port (i.waddr j)) i.we j a)
          (fun j => BitVec.ofNat _ j) (s.memBlockSel a) }

/-- The sampled data and the latches. -/
structure LatchRegs (C : RegfileCfg) where
  wdataQ : Fin C.NrWritePorts → C.Word
  mem : Nat → C.Word

/-- `snitch_regfile` of latches, from one rising edge to the next: the clock that samples the
data runs if some port writes, and opens the latches of the registers that are written. -/
def regfileLatch (C : RegfileCfg) :
    Machine (LatchRegs C) (RegfileIn C) (Fin C.NrReadPorts → C.Word) where
  obs s i k := s.mem (i.raddr k).toNat
  next s i :=
    let ports := List.finRange C.NrWritePorts
    let clk := ports.any i.we
    let waddrOnehot (j : Fin C.NrWritePorts) (a : Nat) : Bool := i.we j && (i.waddr j).toNat == a
    let memClocks (a : Nat) : Bool := clk && ports.any fun j => waddrOnehot j a
    let wdataQ := if clk then i.wdata else s.wdataQ
    { wdataQ := wdataQ
      mem := fun a =>
        if C.ZeroRegZero && a == 0 then 0 else perPort (fun _ => memClocks a) wdataQ (s.mem a) }

/-- What the memories without a reset hold at first. -/
structure PowerUp (C : RegfileCfg) where
  fpga : Nat → Nat → C.Word
  latch : Nat → C.Word

namespace PowerUp

variable (p : PowerUp C)

def ff (_ : PowerUp C) : Nat → C.Word := fun _ => 0

def fpgaRegs : FpgaRegs C where
  mem := p.fpga
  memBlockSel _ := 0

def latchRegs : LatchRegs C where
  wdataQ _ := 0
  mem a := if C.ZeroRegZero && a == 0 then 0 else p.latch a

end PowerUp

/-! ## Reading alike -/

/-- Port `j` is the highest that writes the register. -/
def RegfileIn.Wins (i : RegfileIn C) (a : C.Addr) (j : Fin C.NrWritePorts) : Prop :=
  (i.we j = true ∧ i.waddr j = a) ∧ ∀ j', j < j' → ¬(i.we j' = true ∧ i.waddr j' = a)

/-- The register is not written. -/
def RegfileIn.Spares (i : RegfileIn C) (a : C.Addr) : Prop :=
  ∀ j, ¬(i.we j = true ∧ i.waddr j = a)

/-- The register was last written in cycle `i`, where port `j` wins. -/
def LastWritten (h : List (RegfileIn C)) (a : C.Addr) (i : RegfileIn C)
    (j : Fin C.NrWritePorts) : Prop :=
  ∃ before after, h = before ++ i :: after ∧ i.Wins a j ∧ ∀ i' ∈ after, i'.Spares a

/-- The register is hard-wired to zero. -/
def RegfileCfg.Wired (C : RegfileCfg) (a : C.Addr) : Prop := C.ZeroRegZero = true ∧ a = 0

/-- **The three versions read alike**, after the cycles `h` at a read port: zero from a register
that is wired to it, and else what was last written, by the highest port. -/
structure Interchangeable (p : PowerUp C) (h : List (RegfileIn C)) (now : RegfileIn C)
    (k : Fin C.NrReadPorts) : Prop where
  zero : C.Wired (now.raddr k) →
    (regfileFf C).obs ((regfileFf C).run p.ff h) now k = 0 ∧
      (regfileFpga C).obs ((regfileFpga C).run p.fpgaRegs h) now k = 0 ∧
      (regfileLatch C).obs ((regfileLatch C).run p.latchRegs h) now k = 0
  written : ¬C.Wired (now.raddr k) → ∀ i j, LastWritten h (now.raddr k) i j →
    (regfileFf C).obs ((regfileFf C).run p.ff h) now k = i.wdata j ∧
      (regfileFpga C).obs ((regfileFpga C).run p.fpgaRegs h) now k = i.wdata j ∧
      (regfileLatch C).obs ((regfileLatch C).run p.latchRegs h) now k = i.wdata j

/-! ## One cycle -/

section Ports

variable {β : Type} {guard : Fin C.NrWritePorts → Bool} {value : Fin C.NrWritePorts → β}

theorem perPort_none (none : ∀ j, guard j = false) (old : β) : perPort guard value old = old := by
  refine lastWrite_none ?_ old
  simp [none]

/-- The highest port that assigns wins. -/
theorem perPort_wins {j : Fin C.NrWritePorts} (here : guard j = true)
    (above : ∀ j', j < j' → guard j' = false) (old : β) : perPort guard value old = value j := by
  obtain ⟨front, back, split⟩ := List.append_of_mem (List.mem_finRange j)
  have sorted := List.pairwise_lt_finRange C.NrWritePorts
  rw [split, List.pairwise_append, List.pairwise_cons] at sorted
  rw [perPort, split, List.map_append, List.map_cons, here]
  refine lastWrite_split _ ?_ _ old
  simp only [List.mem_map, forall_exists_index, and_imp]
  rintro write j' later rfl
  exact above j' (sorted.2.1.1 j' later)

/-- Where every port assigns, the last one wins. -/
theorem perPort_all (old : β) : perPort (fun _ => true) value old = value C.lastPort := by
  refine perPort_wins rfl (fun j' above => ?_) old
  have bound := j'.isLt
  rw [Fin.lt_def] at above
  simp only [RegfileCfg.lastPort] at above
  omega

end Ports

theorem weDec_iff {width : Nat} {waddr : Fin C.NrWritePorts → BitVec width}
    {we : Fin C.NrWritePorts → Bool} {j : Fin C.NrWritePorts} {a : Nat} :
    weDec waddr we j a = true ↔ we j = true ∧ (waddr j).toNat = a := by
  rw [weDec]
  split <;> simp [*]

/-- Five bits hold every address. -/
theorem toNat_port (a : C.Addr) : (C.port a).toNat = a.toNat := by
  have wide : 2 ^ C.AddrWidth ≤ 2 ^ 5 := Nat.pow_le_pow_right (by decide) C.addr.2
  rw [RegfileCfg.port, BitVec.toNat_setWidth]
  exact Nat.mod_eq_of_lt (lt_of_lt_of_le a.isLt wide)

theorem port_eq_zero {a : C.Addr} : C.port a = 0 ↔ a = 0 := by
  rw [← BitVec.toNat_inj, ← BitVec.toNat_inj, toNat_port]
  simp

/-- A port number fits its field. -/
theorem toNat_portNumber (j : Fin C.NrWritePorts) :
    (BitVec.ofNat C.LogNrWritePorts j).toNat = j := by
  have fits : C.NrWritePorts ≤ 2 ^ C.LogNrWritePorts := by
    unfold RegfileCfg.LogNrWritePorts
    split
    · omega
    · exact Nat.le_pow_clog (by decide) _
  rw [BitVec.toNat_ofNat]
  exact Nat.mod_eq_of_lt (lt_of_lt_of_le j.isLt fits)

section Cycle

variable {i : RegfileIn C} {a : C.Addr} {j : Fin C.NrWritePorts}

theorem writes_iff : weDec i.waddr i.we j a.toNat = true ↔ i.we j = true ∧ i.waddr j = a := by
  rw [weDec_iff, BitVec.toNat_inj]

theorem fpgaWrites_iff : weDec (fun j => C.port (i.waddr j)) i.we j a.toNat = true ↔
    i.we j = true ∧ i.waddr j = a := by
  rw [weDec_iff, toNat_port, BitVec.toNat_inj]

/-- A register that is not wired is given what the highest port writes, ... -/
theorem ff_wins (plain : ¬C.Wired a) (wins : i.Wins a j) (mem : Nat → C.Word) :
    (regfileFf C).next mem i a.toNat = i.wdata j := by
  have other : (C.ZeroRegZero && a.toNat == 0) = false := by
    simpa [RegfileCfg.Wired, ← BitVec.toNat_inj] using plain
  simp only [regfileFf, other, Bool.false_eq_true, if_false]
  exact perPort_wins (writes_iff.mpr wins.1)
    (fun j' above => by simpa [← writes_iff] using wins.2 j' above) _

theorem ff_spares (plain : ¬C.Wired a) (spares : i.Spares a) (mem : Nat → C.Word) :
    (regfileFf C).next mem i a.toNat = mem a.toNat := by
  have other : (C.ZeroRegZero && a.toNat == 0) = false := by
    simpa [RegfileCfg.Wired, ← BitVec.toNat_inj] using plain
  simp only [regfileFf, other, Bool.false_eq_true, if_false]
  exact perPort_none (fun j => by simpa [← writes_iff] using spares j) _

/-- The register in the memory that is selected for it. -/
def FpgaRegs.selected (s : FpgaRegs C) (a : C.Addr) : C.Word :=
  s.mem (s.memBlockSel a.toNat).toNat a.toNat

/-- ... whose memory is selected, ... -/
theorem fpga_wins (wins : i.Wins a j) (s : FpgaRegs C) :
    ((regfileFpga C).next s i).selected a = i.wdata j := by
  have select : ((regfileFpga C).next s i).memBlockSel a.toNat = BitVec.ofNat _ j :=
    perPort_wins (fpgaWrites_iff.mpr wins.1)
      (fun j' above => by simpa [← fpgaWrites_iff] using wins.2 j' above) _
  rw [FpgaRegs.selected, select, toNat_portNumber]
  simp [regfileFpga, wins.1, toNat_port]

theorem fpga_spares (spares : i.Spares a) (s : FpgaRegs C) :
    ((regfileFpga C).next s i).selected a = s.selected a := by
  have select : ((regfileFpga C).next s i).memBlockSel a.toNat = s.memBlockSel a.toNat :=
    perPort_none (fun j => by simpa [← fpgaWrites_iff] using spares j) _
  rw [FpgaRegs.selected, select, FpgaRegs.selected]
  simp only [regfileFpga, toNat_port]
  split
  · next port =>
      rw [if_neg]
      simpa [BitVec.toNat_inj] using spares ⟨_, port⟩
  · rfl

/-- ... and in latches what the last port has, whichever writes. -/
theorem latch_wins (plain : ¬C.Wired a) (wins : i.Wins a j) (s : LatchRegs C) :
    ((regfileLatch C).next s i).mem a.toNat = i.wdata C.lastPort := by
  have other : (C.ZeroRegZero && a.toNat == 0) = false := by
    simpa [RegfileCfg.Wired, ← BitVec.toNat_inj] using plain
  have clk : (List.finRange C.NrWritePorts).any i.we = true :=
    List.any_eq_true.mpr ⟨j, List.mem_finRange j, wins.1.1⟩
  have opens : ((List.finRange C.NrWritePorts).any fun j =>
      i.we j && (i.waddr j).toNat == a.toNat) = true :=
    List.any_eq_true.mpr ⟨j, List.mem_finRange j, by simp [wins.1]⟩
  simp only [regfileLatch, other, clk, opens, Bool.false_eq_true, if_false, if_true, Bool.and_self]
  exact perPort_all _

theorem latch_spares (plain : ¬C.Wired a) (spares : i.Spares a) (s : LatchRegs C) :
    ((regfileLatch C).next s i).mem a.toNat = s.mem a.toNat := by
  have other : (C.ZeroRegZero && a.toNat == 0) = false := by
    simpa [RegfileCfg.Wired, ← BitVec.toNat_inj] using plain
  have closed : ((List.finRange C.NrWritePorts).any fun j =>
      i.we j && (i.waddr j).toNat == a.toNat) = false := by
    rw [List.any_eq_false]
    intro j _
    simpa [BitVec.toNat_inj] using spares j
  simp only [regfileLatch, other, closed, Bool.false_eq_true, if_false, Bool.and_false]
  exact perPort_none (fun _ => rfl) _

end Cycle

/-! ## Runs -/

/-- A cell that a write sets and that else stays holds what was written last. -/
theorem cell_of_lastWritten {State Obs β : Type} (M : Machine State (RegfileIn C) Obs)
    (cell : State → β) (value : RegfileIn C → Fin C.NrWritePorts → β) {a : C.Addr}
    (wins : ∀ s (i : RegfileIn C) j, i.Wins a j → cell (M.next s i) = value i j)
    (spares : ∀ s (i : RegfileIn C), i.Spares a → cell (M.next s i) = cell s)
    {h : List (RegfileIn C)} {i : RegfileIn C} {j : Fin C.NrWritePorts}
    (last : LastWritten h a i j) (s : State) : cell (M.run s h) = value i j := by
  obtain ⟨before, after, rfl, here, rest⟩ := last
  rw [M.run_append, M.run_cons, ← wins (M.run s before) i j here]
  generalize M.next (M.run s before) i = now
  induction after generalizing now with
  | nil => rfl
  | cons next after ih =>
    rw [List.forall_mem_cons] at rest
    rw [M.run_cons, ih rest.2 (M.next now next), spares now next rest.1]

section Runs

variable {p : PowerUp C} {h : List (RegfileIn C)} {now i : RegfileIn C} {k : Fin C.NrReadPorts}
  {j : Fin C.NrWritePorts}

section

variable (plain : ¬C.Wired (now.raddr k))

include plain

theorem ff_reads (last : LastWritten h (now.raddr k) i j) :
    (regfileFf C).obs ((regfileFf C).run p.ff h) now k = i.wdata j :=
  cell_of_lastWritten (regfileFf C) (fun mem => mem (now.raddr k).toNat)
    (fun i j => i.wdata j) (fun s _ _ wins => ff_wins plain wins s)
    (fun s _ spares => ff_spares plain spares s) last p.ff

theorem fpga_obs (s : FpgaRegs C) : (regfileFpga C).obs s now k = s.selected (now.raddr k) := by
  have other : ¬(C.ZeroRegZero && C.port (now.raddr k) == 0) = true := by
    rw [Bool.and_eq_true, beq_iff_eq, port_eq_zero]
    exact plain
  rw [regfileFpga]
  simp only [if_neg other, toNat_port]
  rfl

theorem fpga_reads (last : LastWritten h (now.raddr k) i j) :
    (regfileFpga C).obs ((regfileFpga C).run p.fpgaRegs h) now k = i.wdata j := by
  rw [fpga_obs plain]
  exact cell_of_lastWritten (regfileFpga C) (fun s => s.selected (now.raddr k))
    (fun i j => i.wdata j) (fun s _ _ wins => fpga_wins wins s)
    (fun s _ spares => fpga_spares spares s) last p.fpgaRegs

theorem latch_reads (last : LastWritten h (now.raddr k) i j) :
    (regfileLatch C).obs ((regfileLatch C).run p.latchRegs h) now k = i.wdata C.lastPort :=
  cell_of_lastWritten (regfileLatch C) (fun s => s.mem (now.raddr k).toNat)
    (fun i _ => i.wdata C.lastPort) (fun s _ _ wins => latch_wins plain wins s)
    (fun s _ spares => latch_spares plain spares s) last p.latchRegs

end

/-- A register that is wired to zero reads zero. -/
theorem wired_reads (wired : C.Wired (now.raddr k)) :
    (regfileFf C).obs ((regfileFf C).run p.ff h) now k = 0 ∧
      (regfileFpga C).obs ((regfileFpga C).run p.fpgaRegs h) now k = 0 ∧
      (regfileLatch C).obs ((regfileLatch C).run p.latchRegs h) now k = 0 := by
  obtain ⟨on, zero⟩ := wired
  refine ⟨?_, ?_, ?_⟩
  · have kept : ((regfileFf C).run p.ff h) 0 = 0 :=
      (regfileFf C).run_keeps (fun mem => mem 0 = 0) (fun s i _ => by simp [regfileFf, on]) rfl h
    simpa [regfileFf, zero] using kept
  · simp [regfileFpga, on, zero, RegfileCfg.port]
  · have kept : ((regfileLatch C).run p.latchRegs h).mem 0 = 0 :=
      (regfileLatch C).run_keeps (fun s => s.mem 0 = 0) (fun s i _ => by simp [regfileLatch, on])
        (by simp [PowerUp.latchRegs, on]) h
    simpa [regfileLatch, zero] using kept

/-- **The three register files read alike exactly where the port that wins has the data of the
last port.** -/
theorem interchangeable_iff (p : PowerUp C) (h : List (RegfileIn C)) (now : RegfileIn C)
    (k : Fin C.NrReadPorts) : Interchangeable p h now k ↔
      (¬C.Wired (now.raddr k) → ∀ i j, LastWritten h (now.raddr k) i j →
        i.wdata j = i.wdata C.lastPort) := by
  constructor
  · intro alike plain i j last
    rw [← (alike.written plain i j last).2.2, latch_reads plain last]
  · intro same
    refine ⟨wired_reads, fun plain i j last => ⟨ff_reads plain last, fpga_reads plain last, ?_⟩⟩
    rw [latch_reads plain last, same plain i j last]

end Runs

/-! ## Two write ports -/

/-- Registers of eight bits with two write ports. -/
abbrev twoPorts : RegfileCfg where
  DataWidth := 8
  NrReadPorts := 1
  NrWritePorts := 2
  ZeroRegZero := true
  AddrWidth := 4
  reads := by decide
  writes := by decide
  addr := by decide

/-- The first port writes 7 to register 1, the second is idle. -/
def firstPortWrites : RegfileIn twoPorts where
  raddr _ := 1
  waddr _ := 1
  wdata j := if j = 0 then 7 else 0
  we j := j == 0

/-- **A write of the first port is lost in the latches**: they take the data of the second. -/
theorem first_port_lost :
    LastWritten [firstPortWrites] 1 firstPortWrites 0 ∧
      (regfileFf twoPorts).obs ((regfileFf twoPorts).run (PowerUp.ff ⟨fun _ _ => 0, fun _ => 0⟩)
        [firstPortWrites]) firstPortWrites 0 = 7 ∧
      (regfileLatch twoPorts).obs ((regfileLatch twoPorts).run
        (PowerUp.latchRegs ⟨fun _ _ => 0, fun _ => 0⟩) [firstPortWrites]) firstPortWrites 0 = 0 ∧
      ¬Interchangeable (C := twoPorts) ⟨fun _ _ => 0, fun _ => 0⟩ [firstPortWrites]
        firstPortWrites 0 := by
  have last : LastWritten [firstPortWrites] 1 firstPortWrites 0 := by
    refine ⟨[], [], rfl, ⟨by decide, ?_⟩, by simp⟩
    decide
  have latched : (regfileLatch twoPorts).obs ((regfileLatch twoPorts).run
      (PowerUp.latchRegs ⟨fun _ _ => 0, fun _ => 0⟩) [firstPortWrites]) firstPortWrites 0 = 0 := by
    decide
  refine ⟨last, by decide, latched, fun alike => ?_⟩
  have read := (alike.written (fun wired => absurd wired.2 (by decide)) firstPortWrites 0 last).2.2
  rw [latched] at read
  exact absurd read (by decide)

end SnitchCluster.Core
