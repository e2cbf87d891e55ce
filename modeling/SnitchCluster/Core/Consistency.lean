/-
# Core.Consistency -- no integer access overtakes a floating-point one it conflicts with

A hart has two load/store units.  The integer core hands its floating-point accesses to
the other one and goes on, so a later access of its own could reach the memory first.
The address queue of the core holds what has been handed over and not completed, as a
truncated word address and a write flag; an integer access is presented only if a masked
compare finds none of them in its way.

What the queue holds may be more than what is outstanding: an address can enter it
without its access (`Core.Offload`), and a completion then takes the oldest address, not
its own.  It is never less (`Snooped`), because the addresses enter in the order of the
accesses and leave in the order of their completions.  `caq_consistent` puts this
together with the compare, for bytes instead of tags.
-/
import Mathlib.Algebra.Group.Nat.Defs
import SnitchCluster.Core.LsuQueues
import SnitchCluster.Core.Offload

namespace SnitchCluster.Core

open Theory

/-- Dropping as many of a selection leaves no more than dropping as many of all. -/
theorem drop_filter_sublist {α : Type} (p : α → Bool) (l : List α) (k : Nat) :
    ((l.filter p).drop k).Sublist (l.drop k) := by
  induction l generalizing k with
  | nil => simp
  | cons x xs ih =>
    cases k with
    | zero => exact List.filter_sublist
    | succ k =>
      rw [List.drop_succ_cons]
      cases selected : p x with
      | true =>
        rw [List.filter_cons_of_pos selected, List.drop_succ_cons]
        exact ih k
      | false =>
        rw [List.filter_cons_of_neg (by rw [selected]; exact Bool.false_ne_true)]
        have less := List.drop_sublist_drop_left (xs.filter p) (Nat.le_succ k)
        exact less.trans (ih k)

/-! ## Accesses and the bytes they touch -/

/-- The size of an access is a power of two, no more than a word. -/
theorem LsSize.bytes_eq (size : LsSize) : ∃ k ≤ 3, size.width / 8 = 2 ^ k := by
  cases size with
  | byte => exact ⟨0, by decide, rfl⟩
  | halfWord => exact ⟨1, by decide, rfl⟩
  | word => exact ⟨2, by decide, rfl⟩
  | double => exact ⟨3, by decide, rfl⟩

/-- A power of two that divides a number divides what a narrower word keeps of it. -/
theorem two_pow_dvd_mod {k n : Nat} (m : Nat) (divides : 2 ^ k ∣ n) : 2 ^ k ∣ n % 2 ^ m := by
  rcases Nat.le_total k m with narrow | wide
  · exact (Nat.dvd_mod_iff (Nat.pow_dvd_pow 2 narrow)).mpr divides
  · rw [Nat.mod_eq_zero_of_dvd (Nat.dvd_trans (Nat.pow_dvd_pow 2 wide) divides)]
    exact Nat.dvd_zero _

/-- An access to memory; `alters` tells a store or an atomic. -/
structure Access (C : Cfg) where
  addr : BitVec C.AddrWidth
  size : LsSize
  alters : Bool
  deriving DecidableEq, Repr

namespace Access

variable {C : Cfg} (a b : Access C)

/-- The access touches the byte at `x`. -/
def Covers (x : Nat) : Prop := a.addr.toNat ≤ x ∧ x < a.addr.toNat + a.size.width / 8

def Aligned : Prop := a.size.width / 8 ∣ a.addr.toNat

/-- The order of the two matters: they share a byte and one of them alters it. -/
def Conflicts : Prop := (∃ x, a.Covers x ∧ b.Covers x) ∧ (a.alters || b.alters) = true

/-- What the address queue keeps of it. -/
def entry : BitVec (C.CaqTagWidth + 1) := LsuState.caqEntry C a.alters a.addr

variable {a b}

/-- An aligned access stays within a word of 64 bits. -/
theorem word_of_covers (aligned : a.Aligned) {x : Nat} (covers : a.Covers x) :
    a.addr.toNat / 8 = x / 8 := by
  obtain ⟨first, last⟩ := covers
  obtain ⟨k, multiple⟩ := aligned
  cases size : a.size <;> simp only [size, LsSize.width] at last multiple <;> omega

/-- Aligned accesses that share a byte have the same tag, however long it is. -/
theorem caqTag_eq (width : C.DataWidth = 64) (left : a.Aligned) (right : b.Aligned) {x : Nat}
    (covers : a.Covers x) (covered : b.Covers x) :
    LsuState.caqTag C a.addr = LsuState.caqTag C b.addr := by
  have align : C.DataAlign = 3 := by
    rw [Cfg.DataAlign, width]
    rfl
  have word : a.addr.toNat / 8 = b.addr.toNat / 8 :=
    (word_of_covers left covers).trans (word_of_covers right covered).symm
  apply BitVec.eq_of_toNat_eq
  rw [LsuState.caqTag, LsuState.caqTag, BitVec.extractLsb'_toNat, BitVec.extractLsb'_toNat, align,
    Nat.shiftRight_eq_div_pow, Nat.shiftRight_eq_div_pow]
  exact congrArg (· % _) word

end Access

/-! ## The compare -/

namespace LsuState

variable {C : Cfg} {P : LsuParts C} {l : LsuState P}

/-- Equal tags meet under the mask unless both accesses leave memory alone. -/
theorem caqEntry_masked {write alters : Bool} {addr addr' : BitVec C.AddrWidth}
    (tags : caqTag C addr = caqTag C addr') (either : (write || alters) = true) :
    caqEntry C write addr &&& caqMask C alters = caqEntry C true addr' &&& caqMask C alters := by
  rw [caqEntry, caqEntry, tags]
  cases write with
  | true => rfl
  | false =>
    have alone : alters = true := either
    rw [alone, caqMask]
    apply BitVec.eq_of_getLsbD_eq
    intro k _
    by_cases inside : k < C.CaqTagWidth <;>
      simp [BitVec.getLsbD_append, BitVec.getLsbD_setWidth, inside]

/-- **The compare is sound.**  A request that passes meets no entry in the queue that it
conflicts with. -/
theorem not_mem_of_caqPass {contents : P.caq.State → List (BitVec (C.CaqTagWidth + 1))}
    (lawful : P.caq.Lawful C.CaqDepth contents) {r : LsuReq C} (valid : r.qvalid = true)
    (pass : l.caqPass r = true) {write : Bool} {addr : BitVec C.AddrWidth}
    (tags : caqTag C addr = caqTag C r.qaddr) (either : (write || r.altersMem) = true) :
    caqEntry C write addr ∉ contents l.caq := by
  intro stored
  rw [caqPass, valid, Bool.and_eq_true, Bool.not_eq_true'] at pass
  have found : P.caq.existsO l.caq true (caqMask C r.altersMem) (caqEntry C true r.qaddr) = true :=
    (lawful.exists_iff _ _ _).mpr ⟨_, stored, caqEntry_masked tags either⟩
  rw [found] at pass
  exact absurd pass.2 (by decide)

/-- A request that passes still passes when the queue has lost entries. -/
theorem caqPass_of_subset {contents : P.caq.State → List (BitVec (C.CaqTagWidth + 1))}
    (lawful : P.caq.Lawful C.CaqDepth contents) {l' : LsuState P} {r : LsuReq C}
    (valid : r.qvalid = true) (fewer : contents l'.caq ⊆ contents l.caq)
    (pass : l.caqPass r = true) : l'.caqPass r = true := by
  rw [caqPass, lawful.existsGrant, valid, Bool.true_and, Bool.not_eq_true', ← Bool.not_eq_true,
    lawful.exists_iff] at pass ⊢
  rintro ⟨e, stored, met⟩
  exact pass ⟨e, fewer stored, met⟩

end LsuState

/-! ## What the core hands over -/

namespace State

variable {C : Cfg} {P : LsuParts C} (s : State P) (i : Input C)

/-- The access of a floating-point load or store. -/
def fpAccess : Access C := ⟨s.lsPaddr i, (s.dec i).lsSize, (s.dec i).isFpStore⟩

/-- The access the core requests of its own unit, at the address it carries: a multicast
store counts as the one the others are copied from. -/
def coreAccess : Access C :=
  ⟨(s.lsuReq i).qaddr, (s.lsuReq i).qsize, (s.lsuReq i).altersMem⟩

/-- What a cycle shows: the access handed over, and whether one is completed. -/
structure FpEvent (C : Cfg) where
  handed : Option (Access C)
  completion : Bool
  deriving DecidableEq, Repr

variable (P) in
def accessMachine : Machine (State P) (Input C) (FpEvent C) where
  obs s i := ⟨if s.fpOffload i then some (s.fpAccess i) else none, i.caqPvalid⟩
  next s i := s.next i

section Past

variable (past : List (FpEvent C))

/-- The accesses handed over, in program order. -/
def handed : List (Access C) := past.filterMap FpEvent.handed

def completed : Nat := past.countP FpEvent.completion

/-- The accesses handed over and not completed. -/
def uncompleted : List (Access C) := (handed past).drop (completed past)

end Past

/-- The other unit completes its accesses in order, each after it was handed over. -/
def completes : Machine.Env (State P) (Input C) (FpEvent C) := fun past _ i =>
  i.caqPvalid = true → completed past < (handed past).length

instance (past : List (FpEvent C)) : Decidable (completes past s i) :=
  inferInstanceAs (Decidable (_ → _))

/-- The core presents the same request cycle after cycle. -/
def Presents (r : LsuReq C) : State P → List (Input C) → Prop
  | _, [] => True
  | s, i :: rest => s.lsuReq i = r ∧ Presents r (s.next i) rest

variable {s i}

/-! ## Alignment -/

theorem alu_aligned (straight : s.lsMisaligned i = false) :
    (s.dec i).lsSize.width / 8 ∣ (s.alu i).toNat := by
  rw [lsMisaligned] at straight
  have low : ∀ k, ((s.alu i).extractLsb' 0 k != 0) = false → 2 ^ k ∣ (s.alu i).toNat := by
    intro k zero
    have same : (s.alu i).extractLsb' 0 k = 0 := by simpa using zero
    have value := congrArg BitVec.toNat same
    rw [BitVec.extractLsb'_toNat, Nat.shiftRight_zero] at value
    exact Nat.dvd_of_mod_eq_zero value
  cases size : (s.dec i).lsSize with
  | byte => exact Nat.one_dvd _
  | halfWord => rw [size] at straight; exact low 1 straight
  | word => rw [size] at straight; exact low 2 straight
  | double => rw [size] at straight; exact low 3 straight

/-- An address keeps the alignment of the computed one. -/
theorem lsPaddr_aligned (straight : s.lsMisaligned i = false) :
    (s.dec i).lsSize.width / 8 ∣ (s.lsPaddr i).toNat := by
  have computed := alu_aligned straight
  obtain ⟨k, small, bytes⟩ := LsSize.bytes_eq (s.dec i).lsSize
  rw [bytes] at computed ⊢
  rw [lsPaddr, BitVec.toNat_setWidth]
  apply two_pow_dvd_mod
  have offset : ((s.alu i).extractLsb' 0 PageShift).toNat = (s.alu i).toNat % 2 ^ PageShift := by
    rw [BitVec.extractLsb'_toNat, Nat.shiftRight_zero]
  rw [BitVec.toNat_append, offset,
    ← Nat.shiftLeft_add_eq_or_of_lt (Nat.mod_lt _ (Nat.two_pow_pos _)), Nat.shiftLeft_eq]
  have page : 2 ^ k ∣ 2 ^ PageShift := Nat.pow_dvd_pow 2 (small.trans (by decide))
  exact Nat.dvd_add (Nat.dvd_mul_left_of_dvd page _) (two_pow_dvd_mod _ computed)

theorem fpAccess_aligned (handed : s.fpOffload i = true) : (s.fpAccess i).Aligned := by
  rw [fpOffload, Bool.and_eq_true, Bool.and_eq_true] at handed
  obtain ⟨access, offers, -⟩ := handed
  have ordinary : s.exception i = false := by
    simp only [accQvalid, Bool.and_eq_true, Bool.not_eq_true'] at offers
    exact offers.2
  have memory := memory_of_caqEna access
  rw [exception_of_memory memory, misaligned_of_memory memory] at ordinary
  simp only [Bool.or_eq_false_iff] at ordinary
  exact lsPaddr_aligned ordinary.1.1.2

theorem coreAccess_aligned (valid : (s.lsuReq i).qvalid = true) : (s.coreAccess i).Aligned := by
  have request : s.lsuTlbQvalid i = true := by
    rw [lsuReq, Bool.and_eq_true] at valid
    exact valid.1
  have memory := memory_of_access (lsuTlbQvalid_access request)
  simp only [lsuTlbQvalid, Bool.and_eq_true, Bool.not_eq_true'] at request
  rw [misaligned_of_memory memory] at request
  exact lsPaddr_aligned request.2

/-! ## The queue covers what is outstanding -/

section Queue

variable (contents : P.caq.State → List (BitVec (C.CaqTagWidth + 1)))

/-- The queue holds the addresses that entered it, less one for each completion; the
accesses handed over are among them, in the same order. -/
structure Snooped (past : List (FpEvent C)) (s : State P) : Prop where
  queue : ∃ pushed : List (Access C × Bool),
    contents s.lsu.caq = (pushed.drop (completed past)).map (fun p => p.1.entry) ∧
      handed past = (pushed.filter Prod.snd).map Prod.fst
  answered : completed past ≤ (handed past).length
  aligned : ∀ a ∈ handed past, a.Aligned
  absent : C.FP_EN = false → handed past = []

variable {contents} {past : List (FpEvent C)}

theorem handed_concat : handed (past ++ [(accessMachine P).obs s i]) =
    handed past ++ if s.fpOffload i then [s.fpAccess i] else [] := by
  exact filterMap_shown (by rfl) _

theorem completed_concat : completed (past ++ [(accessMachine P).obs s i]) =
    completed past + i.caqPvalid.toNat := by
  rw [completed, List.countP_append, List.countP_singleton]
  show _ + (if i.caqPvalid then 1 else 0) = _
  cases i.caqPvalid <;> rfl

/-- **The queue holds every outstanding access.** -/
theorem Snooped.entry_mem (snooped : Snooped contents past s) {a : Access C}
    (outstanding : a ∈ uncompleted past) : a.entry ∈ contents s.lsu.caq := by
  obtain ⟨pushed, stored, among⟩ := snooped.queue
  rw [uncompleted, among, ← List.map_drop] at outstanding
  obtain ⟨p, member, rfl⟩ := List.mem_map.mp outstanding
  rw [stored]
  exact List.mem_map_of_mem ((drop_filter_sublist _ _ _).subset member)

variable (lawful : P.caq.Lawful C.CaqDepth contents)

/-- A completion finds an address to take. -/
theorem Snooped.stored (snooped : Snooped contents past s) (admitted : completes past s i) :
    i.caqPvalid = true → contents s.lsu.caq ≠ [] := by
  intro completes empty
  obtain ⟨pushed, stored, among⟩ := snooped.queue
  have earlier := admitted completes
  have most : (pushed.filter Prod.snd).length ≤ pushed.length := List.length_filter_le _ _
  have size := congrArg List.length stored
  rw [empty, List.length_nil, List.length_map, List.length_drop] at size
  rw [among, List.length_map] at earlier
  omega

theorem Snooped.idle (snooped : Snooped contents past s) (admitted : completes past s i)
    (disabled : C.FP_EN = false) : i.caqPvalid = false := by
  rw [← Bool.not_eq_true]
  intro completion
  have earlier := admitted completion
  rw [snooped.absent disabled] at earlier
  exact absurd earlier (Nat.not_lt_zero _)

include lawful in
/-- **The invariant survives a cycle.** -/
theorem Snooped.next (snooped : Snooped contents past s) (admitted : completes past s i) :
    Snooped contents (past ++ [(accessMachine P).obs s i]) (s.next i) := by
  have moved := caq_contents_next lawful (snooped.stored admitted) (snooped.idle admitted)
  have count := snooped.answered
  have answers : completed past + i.caqPvalid.toNat ≤ (handed past).length := by
    cases completion : i.caqPvalid with
    | false => exact count
    | true => exact admitted completion
  constructor
  · obtain ⟨pushed, stored, among⟩ := snooped.queue
    have most : (pushed.filter Prod.snd).length ≤ pushed.length := List.length_filter_le _ _
    have inside : completed past + i.caqPvalid.toNat ≤ pushed.length := by
      rw [among, List.length_map] at answers
      omega
    have left : (if i.caqPvalid then (contents s.lsu.caq).tail else contents s.lsu.caq) =
        (pushed.drop (completed past + i.caqPvalid.toNat)).map fun p => p.1.entry := by
      rw [stored]
      cases i.caqPvalid with
      | false => rfl
      | true => rw [if_pos rfl, ← List.map_tail, List.tail_drop]; rfl
    rw [left] at moved
    cases push : s.snoopPush i with
    | false =>
      have kept : s.fpOffload i = false := by rw [fpOffload_eq, push, Bool.false_and]
      refine ⟨pushed, ?_, ?_⟩
      · rw [completed_concat]
        show contents (s.next i).lsu.caq = _
        rw [moved, push, if_neg Bool.false_ne_true, List.append_nil]
      · rw [handed_concat, kept, if_neg Bool.false_ne_true, List.append_nil, among]
    | true =>
      refine ⟨pushed ++ [(s.fpAccess i, s.fpOffload i)], ?_, ?_⟩
      · rw [completed_concat, List.drop_append_of_le_length inside, List.map_append]
        show contents (s.next i).lsu.caq = _
        rw [moved, push, if_pos rfl]
        rfl
      · rw [handed_concat, List.filter_append, List.map_append, among]
        cases hands : s.fpOffload i <;> simp
  · rw [handed_concat, completed_concat, List.length_append]
    omega
  · intro a member
    rw [handed_concat, List.mem_append] at member
    rcases member with before | now
    · exact snooped.aligned a before
    · cases hands : s.fpOffload i with
      | false => rw [hands] at now; exact absurd now List.not_mem_nil
      | true =>
        rw [hands, if_pos rfl, List.mem_singleton] at now
        rw [now]
        exact fpAccess_aligned hands
  · intro disabled
    have kept : s.fpOffload i = false := by
      rw [← Bool.not_eq_true]
      intro hands
      rw [fpOffload, Bool.and_eq_true] at hands
      rw [caqEna_enabled hands.1] at disabled
      contradiction
    rw [handed_concat, kept, if_neg Bool.false_ne_true, List.append_nil]
    exact snooped.absent disabled

include lawful in
/-- An access the core presents conflicts with none that is outstanding. -/
theorem Snooped.apart (width : C.DataWidth = 64) (snooped : Snooped contents past s)
    (presented : s.dataQvalid i = true) {a : Access C} (outstanding : a ∈ uncompleted past) :
    ¬a.Conflicts (s.coreAccess i) := by
  rintro ⟨⟨x, covers, covered⟩, either⟩
  have member : a ∈ handed past := List.mem_of_mem_drop outstanding
  have enabled : C.FP_EN = true := by
    rw [← Bool.not_eq_false]
    intro disabled
    rw [snooped.absent disabled] at member
    exact absurd member List.not_mem_nil
  rw [dataQvalid, LsuState.qValid, LsuState.postcaqQvalid, enabled, if_pos rfl, Bool.and_eq_true,
    Bool.and_eq_true, Bool.and_eq_true] at presented
  obtain ⟨⟨⟨pass, valid⟩, -⟩, -⟩ := presented
  have tags := Access.caqTag_eq width (snooped.aligned a member) (coreAccess_aligned valid)
    covers covered
  exact LsuState.not_mem_of_caqPass lawful valid pass tags either (snooped.entry_mem outstanding)

include lawful in
/-- While the core requests an access of its own, the queue only loses entries. -/
theorem Snooped.contents_subset (snooped : Snooped contents past s)
    (admitted : completes past s i) (valid : (s.lsuReq i).qvalid = true) :
    contents (s.next i).lsu.caq ⊆ contents s.lsu.caq := by
  have request : s.lsuTlbQvalid i = true := by
    rw [lsuReq, Bool.and_eq_true] at valid
    exact valid.1
  have noPush : s.snoopPush i = false := by
    rw [snoopPush_eq, ← Bool.not_eq_true]
    intro push
    simp only [Bool.and_eq_true] at push
    rw [lsuTlbQvalid_of_caqEna push.1.1.1] at request
    contradiction
  rw [caq_contents_next lawful (snooped.stored admitted) (snooped.idle admitted), noPush,
    if_neg Bool.false_ne_true, List.append_nil]
  cases i.caqPvalid with
  | false => exact List.Subset.refl _
  | true => exact fun _ member => List.mem_of_mem_tail member

include lawful in
theorem snooped_of_reaches
    (reached : (accessMachine P).Reaches completes (State.reset P) past s) :
    Snooped contents past s := by
  refine reached.invariant (Snooped contents) ?_ ?_
  · have empty : contents (State.reset P).lsu.caq = [] := lawful.init
    refine ⟨⟨[], empty, rfl⟩, Nat.le_refl _, ?_, fun _ => rfl⟩
    intro a member
    exact absurd member List.not_mem_nil
  · intro past s i _ before admitted
    exact before.next lawful admitted

include lawful in
/-- A request that passes stays passed as long as the core presents it. -/
theorem Snooped.stays {r : LsuReq C} (valid : r.qvalid = true) (snooped : Snooped contents past s)
    (pass : s.lsu.caqPass r = true) (waits : List (Input C))
    (admitted : (accessMachine P).Admits completes past s waits) (presents : s.Presents r waits) :
    ((accessMachine P).run s waits).lsu.caqPass r = true := by
  induction waits generalizing past s with
  | nil => exact pass
  | cons i rest ih =>
    have request : (s.lsuReq i).qvalid = true := by rw [presents.1, valid]
    have fewer := snooped.contents_subset lawful admitted.1 request
    exact ih (snooped.next lawful admitted.1)
      (LsuState.caqPass_of_subset lawful valid fewer pass) admitted.2 presents.2

/-- **Integer and floating-point accesses are consistent.**  On a data bus of 64 bits, for any
depth and tag width of the address queue, in every run in which the other unit completes
its accesses in order: an access the core presents to the memory shares no byte with an
access handed over earlier and not completed, if one of the two alters memory; and a
request that has passed the queue stays passed until it is accepted. -/
theorem caq_consistent (width : C.DataWidth = 64) (lawful : P.caq.Lawful C.CaqDepth contents)
    (reached : (accessMachine P).Reaches completes (State.reset P) past s) :
    (∀ i, s.dataQvalid i = true → ∀ a ∈ uncompleted past, ¬a.Conflicts (s.coreAccess i)) ∧
      ∀ r waits, r.qvalid = true → s.lsu.caqPass r = true →
        (accessMachine P).Admits completes past s waits → s.Presents r waits →
          ((accessMachine P).run s waits).lsu.caqPass r = true := by
  have snooped := snooped_of_reaches lawful reached
  constructor
  · intro i presented a outstanding
    exact snooped.apart lawful width presented outstanding
  · intro r waits valid pass admitted presents
    exact snooped.stays lawful valid pass waits admitted presents

end Queue

/-! ### A store and two loads -/

/-- Room for two addresses of four bits. -/
abbrev taggedCfg : Cfg := { smallCfg with CaqDepth := 2, CaqTagWidth := 4 }

abbrev taggedParts : LsuParts taggedCfg := LsuParts.ofList taggedCfg

/-- `fsw f0, 8(x0)` -/
def fswIn : Input taggedCfg where
  instData := 0x00002427

/-- `lw x5, offset(x0)`, to which the memory is ready or not. -/
def lwIn (offset : BitVec 12) (ready : Bool) : Input taggedCfg where
  instData := offset ++ (0x02283 : BitVec 20)
  dataRsp := ⟨ready, false, 0⟩

/-- After the store is handed over, a load from the next word passes and stays passed
while the memory lets it wait; a load of the stored bytes is held back. -/
theorem caq_consistent_fsw :
    let s := (State.reset taggedParts).next fswIn
    (s.dataQvalid (lwIn 16 false) = true ∧
        ¬((State.reset taggedParts).fpAccess fswIn).Conflicts (s.coreAccess (lwIn 16 false))) ∧
      s.dataQvalid (lwIn 8 true) = false ∧
      (s.next (lwIn 16 false)).lsu.caqPass (s.lsuReq (lwIn 16 false)) = true := by
  have reached : (accessMachine taggedParts).Reaches completes (State.reset taggedParts)
      ((accessMachine taggedParts).trace (State.reset taggedParts) [fswIn])
      ((State.reset taggedParts).next fswIn) :=
    (accessMachine taggedParts).reaches_run _ [fswIn] ⟨by decide, trivial⟩
  have consistent := caq_consistent rfl (IdQueue.ofList_lawful _ _) reached
  refine ⟨⟨by decide, consistent.1 _ (by decide) _ (by decide)⟩, by decide, ?_⟩
  exact consistent.2 _ [lwIn 16 false] (by decide) (by decide) ⟨by decide, trivial⟩ ⟨rfl, trivial⟩

end State

end SnitchCluster.Core
