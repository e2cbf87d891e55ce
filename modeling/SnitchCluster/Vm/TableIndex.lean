/-
# Vm.TableIndex -- the entry of a virtual page

The walker puts the index of an entry behind a page number, in a variable as wide as a page
offset.  Ten bits of a virtual page number and two for entries of four bytes fill it; with
entries of eight bytes, for more than 34 address bits, the uppermost bit of the virtual page
number falls off, and pages half a table apart share an entry (`addresses_iff`).
-/
import SnitchCluster.Vm.Ptw

namespace SnitchCluster.Vm.Ptw

open Theory
open SnitchCluster.Core

variable {ppn : Nat}

/-! ## Indices -/

theorem two_pow_PTEAddrOffset : 2 ^ PTEAddrOffset ppn = PTESize ppn := by
  unfold PTEAddrOffset PTESize
  split <;> rfl

/-- The address behind a page number. -/
theorem toNat_append_index (a : BitVec ppn) (vpn : BitVec 10) :
    (a ++ pageTableIndex ppn vpn).toNat =
      a.toNat * 2 ^ PageShift + vpn.toNat * PTESize ppn % 2 ^ PageShift := by
  have low := (pageTableIndex ppn vpn).isLt
  rw [BitVec.toNat_append, ← Nat.shiftLeft_add_eq_or_of_lt low, toNat_pageTableIndex,
    two_pow_PTEAddrOffset, Nat.shiftLeft_eq]
  rfl

/-- An index fits a page offset if entries have four bytes. -/
theorem index_fits (narrow : ppn + PageShift ≤ 34) (vpn : BitVec 10) :
    vpn.toNat * PTESize ppn < 2 ^ PageShift := by
  have size : PTESize ppn = 4 := if_neg (Nat.not_lt.mpr narrow)
  have page : 2 ^ PageShift = 4096 := rfl
  have bound := vpn.isLt
  rw [size, page]
  omega

/-- Half a table further on, eight-byte entries are indexed alike. -/
theorem index_half (wide : 34 < ppn + PageShift) (vpn : BitVec 10) :
    (vpn + 512).toNat * PTESize ppn % 2 ^ PageShift = vpn.toNat * PTESize ppn % 2 ^ PageShift := by
  have size : PTESize ppn = 8 := if_pos wide
  have page : 2 ^ PageShift = 4096 := rfl
  have half : (512 : BitVec 10).toNat = 512 := rfl
  rw [size, page, BitVec.toNat_add, half]
  omega

theorem half_ne (vpn : BitVec 10) : vpn + 512 ≠ vpn := by
  intro same
  have numbers := congrArg BitVec.toNat same
  have half : (512 : BitVec 10).toNat = 512 := rfl
  have bound := vpn.isLt
  rw [BitVec.toNat_add, half] at numbers
  omega

theorem vpn1_append (a b : BitVec 10) : Va.vpn1 (a ++ b) = a := by
  apply BitVec.eq_of_getLsbD_eq
  intro k inside
  rw [Va.vpn1, BitVec.getLsbD_extractLsb', BitVec.getLsbD_append (x := a) (y := b)]
  simp [inside]

theorem vpn0_append (a b : BitVec 10) : Va.vpn0 (a ++ b) = b := by
  apply BitVec.eq_of_getLsbD_eq
  intro k inside
  rw [Va.vpn0, BitVec.getLsbD_extractLsb', BitVec.getLsbD_append (x := a) (y := b)]
  simp [inside]

/-! ## The addresses read -/

section Addresses

variable (s : Ptw ppn) (i : PtwIn ppn)

/-- The table of the look-up: the root table, or the one the last entry points to. -/
def page : BitVec ppn :=
  if s.state = .lookupPTE ∧ s.lvl < 2 then s.pte.pa else i.ppn_i

/-- The virtual page number at its level. -/
def vpn : BitVec 10 :=
  if s.state = .lookupPTE ∧ s.lvl < 2 then i.va.vpn0 else i.va.vpn1

/-- The address is that of the entry. -/
def Exact : Prop :=
  (s.qAddr i).toNat = (s.page i).toNat * 2 ^ PageShift + (s.vpn i).toNat * PTESize ppn

/-- Another virtual page number at this level reads another entry of the table. -/
def Distinct : Prop :=
  ∀ i' : PtwIn ppn, s.qValid i' = true → s.page i' = s.page i → s.vpn i' ≠ s.vpn i →
    s.qAddr i' ≠ s.qAddr i

theorem qAddr_eq : s.qAddr i = s.page i ++ pageTableIndex ppn (s.vpn i) := by
  unfold qAddr page vpn
  split <;> rfl

variable {s i}

theorem exact_of_narrow (narrow : ppn + PageShift ≤ 34) : s.Exact i := by
  rw [Exact, qAddr_eq, toNat_append_index, Nat.mod_eq_of_lt (index_fits narrow _)]

theorem distinct_of_narrow (narrow : ppn + PageShift ≤ 34) : s.Distinct i := by
  intro i' _ table differ same
  apply differ
  have here : s.Exact i := exact_of_narrow narrow
  have there : s.Exact i' := exact_of_narrow narrow
  unfold Exact at here there
  rw [same, here, table] at there
  have size : PTESize ppn = 4 := if_neg (Nat.not_lt.mpr narrow)
  rw [size] at there
  apply BitVec.eq_of_toNat_eq
  omega

/-- The request half a table further on. -/
def half (i : PtwIn ppn) : PtwIn ppn :=
  { i with va := (i.va.vpn1 + 512) ++ (i.va.vpn0 + 512) }

theorem vpn_half : s.vpn (half i) = s.vpn i + 512 := by
  simp only [vpn, half, vpn0_append, vpn1_append]
  split <;> rfl

theorem qAddr_half (wide : 34 < ppn + PageShift) : s.qAddr (half i) = s.qAddr i := by
  apply BitVec.eq_of_toNat_eq
  rw [qAddr_eq, qAddr_eq, toNat_append_index, toNat_append_index, vpn_half, index_half wide]
  rfl

/-- **The walker addresses an entry of its own for every page exactly if entries have four
bytes.** -/
theorem addresses_iff (asks : s.qValid i = true) :
    s.Exact i ∧ s.Distinct i ↔ ppn + PageShift ≤ 34 := by
  constructor
  · rintro ⟨-, distinct⟩
    by_contra! wide
    refine distinct (half i) ?_ rfl ?_ (qAddr_half wide)
    · exact asks
    · rw [vpn_half]
      exact half_ne _
  · intro narrow
    exact ⟨exact_of_narrow narrow, distinct_of_narrow narrow⟩

end Addresses

/-! ## Two widths -/

/-- A request for the page `vpn1` of the root table on page 5. -/
def request (ppn : Nat) (vpn1 : BitVec 10) : PtwIn ppn where
  ppn_i := 5
  valid := true
  va := vpn1 ++ (0 : BitVec 10)
  qReady := true
  pValid := false
  p := ⟨0, false⟩

theorem addresses_iff_sv32 :
    ({} : Ptw 22).Exact (request 22 768) ∧ ({} : Ptw 22).Distinct (request 22 768) :=
  (addresses_iff rfl).mpr (by decide)

/-- With 48 address bits pages 0 and 512 of a table share an entry. -/
theorem entry_shared :
    ({} : Ptw 36).qValid (request 36 0) = true ∧ ({} : Ptw 36).qValid (request 36 512) = true ∧
      ({} : Ptw 36).qAddr (request 36 512) = ({} : Ptw 36).qAddr (request 36 0) ∧
      ¬({} : Ptw 36).Exact (request 36 512) ∧ ¬({} : Ptw 36).Distinct (request 36 0) := by
  have shared : ({} : Ptw 36).qAddr (request 36 512) = ({} : Ptw 36).qAddr (request 36 0) := by
    decide
  refine ⟨rfl, rfl, shared, ?_, ?_⟩
  · unfold Exact
    decide
  · intro distinct
    exact distinct (request 36 512) rfl rfl (by decide) shared

end SnitchCluster.Vm.Ptw
