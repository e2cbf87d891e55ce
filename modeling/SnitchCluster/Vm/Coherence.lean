/-
# Vm.Coherence -- the level-zero buffer as a cache of the walk

The buffer answers from any entry that matches, and adds up what the matching entries
say.  So it is a cache of the walk only if no two entries match one address: an
invariant of refills, of replacement and of flushes (`Coherent`), which rests on the
request standing still while it misses.  The flags of a miss and of a refill in
progress lag one cycle behind the comparison; together they ask for exactly the misses
that no response has just met (`Waiting`).
-/
import SnitchCluster.Theory.BitManip
import SnitchCluster.Vm.Ptw

namespace SnitchCluster.Vm

open Theory
open SnitchCluster.Core

variable {ppn entries : Nat}

/-- What the walk finds for each address.  A four-mega page found for one address is
found for every address of the same first index. -/
structure Translation (ppn : Nat) where
  pte : Va → Pte ppn
  is4mega : Va → Bool
  wide : ∀ va other : Va, is4mega va = true → other.vpn1 = va.vpn1 →
    is4mega other = true ∧ pte other = pte va

namespace Translation

variable (W : Translation ppn)

/-- The walker over fixed tables is such a walk. -/
def ofTables (mem : Addr ppn → MemRsp ppn) (root : BitVec ppn) : Translation ppn where
  pte va := (Ptw.found mem root va).2.1
  is4mega va := (Ptw.found mem root va).2.2
  wide := by
    intro va other mega same
    simp only [Ptw.found, same] at mega ⊢
    by_cases pointer : Ptw.pointer (mem (root ++ Ptw.pageTableIndex ppn va.vpn1)) = true
    · simp [pointer] at mega
    · rw [if_neg pointer] at mega ⊢
      rw [if_neg pointer]
      exact ⟨mega, rfl⟩

/-- The physical page of an address: within a four-mega page, the lower ten bits are
those of the address. -/
def pa (va : Va) : BitVec ppn :=
  if W.is4mega va then
    BitManip.ofBits (fun k => if k < 10 then va.vpn0.getLsbD k else (W.pte va).pa.getLsbD k) ppn
  else (W.pte va).pa

/-- The access check of the buffer, made on the flags of the walk. -/
def pageFault (p : TlbPort ppn) : Bool :=
  let f := (W.pte p.va).flags
  !((f.x && p.execute || !p.execute) && (f.w && p.write || !p.write) &&
    (f.r && !p.read || p.read) && f.a && (f.d && p.write || !p.write) &&
    (f.u && p.privLvl == PrivLvlU || p.privLvl == PrivLvlS) &&
    (!f.u && p.privLvl == PrivLvlS || p.privLvl == PrivLvlU))

end Translation

end SnitchCluster.Vm

namespace SnitchCluster.Core.Tlb

open Theory
open Vm

variable {ppn entries : Nat}

/-! ## Runs -/

/-- What a cycle shows: the request, whether it was accepted, and whether the refill
port answered. -/
structure Obs where
  valid : Bool
  va : Va
  ready : Bool
  response : Bool

variable (t : Tlb ppn entries) (p : TlbPort ppn)

/-- A response of the refill port: `valid_o && ready_i`. -/
def responds : Bool := t.refillValid && p.refillReady

variable (ppn entries) in
def machine : Machine (Tlb ppn entries) (TlbPort ppn) Obs where
  obs t p := ⟨p.valid, p.va, t.ready p.va, t.responds p⟩
  next t p := t.next p

/-- The request that was not accepted in the last cycle. -/
def pending (past : List Obs) : Option Va :=
  past.getLast?.bind fun o => if o.valid && !o.ready then some o.va else none

/-- A request is held until it is accepted, and the refill port answers with the walk. -/
def env (W : Translation ppn) : Machine.Env (Tlb ppn entries) (TlbPort ppn) Obs := fun past t p =>
  (∀ va, pending past = some va → p.valid = true ∧ p.va = va) ∧
    (t.responds p = true → p.refillPte = W.pte p.va ∧ p.refill4mega = W.is4mega p.va)

/-! ## One cycle -/

variable {t p}

theorem hit_iff {va : Va} {e : Fin entries} : t.hit va e = true ↔ t.tagValid e = true ∧
    va.vpn1 = (t.tag e).va.vpn1 ∧ ((t.tag e).is4mega = true ∨ va.vpn0 = (t.tag e).va.vpn0) := by
  simp [hit]

theorem ready_iff {va : Va} : t.ready va = true ↔ ∃ e, t.hit va e = true := by
  simp [ready]

theorem not_ready_iff {va : Va} : t.ready va = false ↔ ∀ e, t.hit va e = false := by
  simp [ready]

/-- The response of a cycle goes into this entry. -/
def fills (t : Tlb ppn entries) (p : TlbPort ppn) (e : Fin entries) : Bool :=
  t.responds p && e.val == t.evict

theorem next_tagValid (e : Fin entries) :
    (t.next p).tagValid e = if p.flush then false else t.fills p e || t.tagValid e := rfl

theorem next_tag (e : Fin entries) :
    (t.next p).tag e = if t.fills p e then ⟨p.va, p.refill4mega⟩ else t.tag e := rfl

theorem next_pte (e : Fin entries) :
    (t.next p).pte e = if t.fills p e then p.refillPte else t.pte e := rfl

/-- A hit after a cycle: of the entry just filled, or of an old one. -/
theorem hit_next_iff {va : Va} {e : Fin entries} : (t.next p).hit va e = true ↔
    p.flush = false ∧
      if t.fills p e then va.vpn1 = p.va.vpn1 ∧ (p.refill4mega = true ∨ va.vpn0 = p.va.vpn0)
      else t.hit va e = true := by
  rw [hit_iff, hit_iff, next_tagValid, next_tag]
  cases p.flush <;> cases t.fills p e <;> simp

/-- The entries that answer for an address. -/
theorem any_hit {va : Va} {e : Fin entries}
    (unique : ∀ e', t.hit va e' = true → e' = e) (here : t.hit va e = true)
    (g : Fin entries → Bool) : ((List.finRange entries).any fun e => g e && t.hit va e) = g e := by
  cases value : g e with
  | true =>
    rw [List.any_eq_true]
    exact ⟨e, List.mem_finRange e, by rw [value, here]; rfl⟩
  | false =>
    rw [List.any_eq_false]
    intro e' _ both
    rw [Bool.and_eq_true] at both
    rw [unique e' both.2, value] at both
    exact Bool.false_ne_true both.1

theorem getLsbD_hitPa (va : Va) (k : Nat) : (t.hitPa va).getLsbD k =
    (List.finRange entries).any fun e => (t.pte e).pa.getLsbD k && t.hit va e := by
  have step : ∀ (l : List (Fin entries)) (pa : BitVec ppn),
      (l.foldl (fun pa e => if t.hit va e then pa ||| (t.pte e).pa else pa) pa).getLsbD k =
        (pa.getLsbD k || l.any fun e => (t.pte e).pa.getLsbD k && t.hit va e) := by
    intro l
    induction l with
    | nil => simp
    | cons e rest ih =>
      intro pa
      rw [List.foldl_cons, ih, List.any_cons]
      cases t.hit va e <;> simp [Bool.or_assoc]
  rw [hitPa, step, show BitVec.getLsbD (0 : BitVec ppn) k = false from BitVec.getLsbD_zero,
    Bool.false_or]

/-! ## The entries -/

/-- Every valid entry holds what the walk finds, no address meets two of them, and the
last one is never replaced where there are others. -/
structure Coherent (W : Translation ppn) (t : Tlb ppn entries) : Prop where
  truthful : ∀ e, t.tagValid e = true →
    t.pte e = W.pte (t.tag e).va ∧ (t.tag e).is4mega = W.is4mega (t.tag e).va
  unique : ∀ va e e', t.hit va e = true → t.hit va e' = true → e = e'
  evicts : t.evict = 0 ∨ t.evict + 1 < entries

variable {W : Translation ppn}

theorem vpn_ext {va other : Va} (upper : va.vpn1 = other.vpn1) (lower : va.vpn0 = other.vpn0) :
    va = other := by
  apply BitVec.eq_of_getLsbD_eq
  intro i inside
  have high := congrArg (fun x => x.getLsbD (i - 10)) upper
  have low := congrArg (fun x => x.getLsbD i) lower
  simp only [Va.vpn1, Va.vpn0, BitVec.getLsbD_extractLsb'] at high low
  by_cases half : i < 10
  · simpa [half] using low
  · have place : 10 + (i - 10) = i := by omega
    simpa [place, show i - 10 < 10 by omega] using high

namespace Coherent

/-- An entry that matches an address within the page of another one matches that, too. -/
theorem hit_shared (inv : Coherent W t) {va other : Va} {e : Fin entries}
    (here : t.hit va e = true) (upper : va.vpn1 = other.vpn1)
    (lower : W.is4mega other = true ∨ va.vpn0 = other.vpn0) : t.hit other e = true := by
  rw [hit_iff] at here ⊢
  obtain ⟨valid, index, page⟩ := here
  rcases lower with mega | same
  · have wide := (W.wide other (t.tag e).va mega (index.symm.trans upper)).1
    exact ⟨valid, upper.symm.trans index, .inl ((inv.truthful e valid).2.trans wide)⟩
  · obtain rfl := vpn_ext upper same
    exact ⟨valid, index, page⟩

theorem init : Coherent W ({} : Tlb ppn entries) where
  truthful e valid := absurd valid Bool.false_ne_true
  unique va e e' here := by simp [hit] at here
  evicts := .inl rfl

theorem evict_next (before : t.evict = 0 ∨ t.evict + 1 < entries) :
    (t.next p).evict = 0 ∨ (t.next p).evict + 1 < entries := by
  have value : (t.next p).evict = if entries > 1 then
      (if (if t.responds p then t.evict + 1 else t.evict) = entries - 1 then 0
        else if t.responds p then t.evict + 1 else t.evict) else 0 := rfl
  have step : (if t.responds p then t.evict + 1 else t.evict) ≤ t.evict + 1 := by
    split <;> omega
  generalize (if t.responds p then t.evict + 1 else t.evict) = bumped at value step
  by_cases several : entries > 1
  · rw [value, if_pos several]
    by_cases wraps : bumped = entries - 1
    · exact .inl (if_pos wraps)
    · rw [if_neg wraps]
      omega
  · exact .inl (value.trans (if_neg several))

/-- **A cycle keeps the entries coherent** if a response answers a miss with the walk. -/
theorem next (inv : Coherent W t) (answers : t.responds p = true →
      (p.refillPte = W.pte p.va ∧ p.refill4mega = W.is4mega p.va) ∧ t.ready p.va = false) :
    Coherent W (t.next p) where
  truthful e valid := by
    rw [next_tagValid] at valid
    rw [next_pte, next_tag]
    cases filled : t.fills p e with
    | true =>
      have response : t.responds p = true := (Bool.and_eq_true_iff.mp filled).1
      exact (answers response).1
    | false =>
      apply inv.truthful e
      cases flush : p.flush <;> simp [filled, flush] at valid
      exact valid
  unique va e e' here there := by
    rw [hit_next_iff] at here there
    -- the new entry has no rival: an old one would have answered the request
    have alone : ∀ {a b : Fin entries}, t.fills p a = true →
        va.vpn1 = p.va.vpn1 ∧ (p.refill4mega = true ∨ va.vpn0 = p.va.vpn0) →
        t.hit va b = true → False := by
      intro a b filled within old
      obtain ⟨⟨-, mega⟩, missing⟩ := answers (Bool.and_eq_true_iff.mp filled).1
      rw [mega] at within
      have hits := inv.hit_shared old within.1 within.2
      rw [not_ready_iff.mp missing b] at hits
      contradiction
    by_cases left : t.fills p e = true <;> by_cases right : t.fills p e' = true
    · have place : e.val = t.evict := by simpa using (Bool.and_eq_true_iff.mp left).2
      have other : e'.val = t.evict := by simpa using (Bool.and_eq_true_iff.mp right).2
      exact Fin.ext (place.trans other.symm)
    · rw [if_pos left] at here
      rw [if_neg right] at there
      exact (alone left here.2 there.2).elim
    · rw [if_neg left] at here
      rw [if_pos right] at there
      exact (alone right there.2 here.2).elim
    · rw [if_neg left] at here
      rw [if_neg right] at there
      exact inv.unique va e e' here.2 there.2
  evicts := evict_next inv.evicts

/-- The entry that answers for an address holds the walk of that address. -/
theorem entry (inv : Coherent W t) {va : Va} {e : Fin entries} (here : t.hit va e = true) :
    t.pte e = W.pte va ∧ (t.tag e).is4mega = W.is4mega va := by
  obtain ⟨valid, index, page⟩ := hit_iff.mp here
  obtain ⟨entry, mega⟩ := inv.truthful e valid
  rcases page with wide | same
  · obtain ⟨other, found⟩ := W.wide (t.tag e).va va (mega ▸ wide) index
    exact ⟨entry.trans found.symm, wide.trans other.symm⟩
  · rw [vpn_ext index same]
    exact ⟨entry, mega⟩

/-- **What a hit returns is the walk.** -/
theorem answers (inv : Coherent W t) {va : Va} (hits : t.ready va = true) :
    (∀ f, t.flag va f = f (W.pte va).flags) ∧ t.pa va = W.pa va := by
  obtain ⟨e, here⟩ := ready_iff.mp hits
  obtain ⟨entry, mega⟩ := inv.entry here
  have unique : ∀ e', t.hit va e' = true → e' = e := fun e' there => inv.unique va e' e there here
  have page : t.hitPa va = (W.pte va).pa := by
    apply BitVec.eq_of_getLsbD_eq
    intro k _
    rw [getLsbD_hitPa, any_hit unique here, entry]
  have wide : t.is4mega va = W.is4mega va := (any_hit unique here _).trans mega
  constructor
  · intro f
    rw [flag, any_hit unique here, entry]
  · rw [pa, page, wide, Translation.pa]
    cases W.is4mega va with
    | false => simp
    | true =>
      apply BitVec.eq_of_getLsbD_eq
      intro k inside
      simp only [if_true, BitVec.getLsbD_or, BitVec.getLsbD_and, BitVec.getLsbD_not,
        BitVec.getLsbD_setWidth, BitVec.getLsbD_allOnes, BitManip.getLsbD_ofBits, inside]
      by_cases low : k < 10 <;> simp [low]

end Coherent

/-! ## The flags of a miss and of a refill -/

theorem pending_concat (past : List Obs) (o : Obs) :
    pending (past ++ [o]) = if o.valid && !o.ready then some o.va else none := by
  simp [pending]

/-- The two flags speak of the last cycle: a request missed, and no response came.  The
entries have not changed since, so the request still misses. -/
structure Waiting (past : List Obs) (t : Tlb ppn entries) : Prop where
  miss : t.miss = (pending past).isSome
  missing : t.refill = true → ∀ va, pending past = some va → t.ready va = false

namespace Waiting

theorem init : Waiting [] ({} : Tlb ppn entries) where
  miss := rfl
  missing refills := absurd refills Bool.false_ne_true

/-- A request to the walker is for the request that is held, and it still misses. -/
theorem needed {past : List Obs} (inv : Waiting past t) (admitted : env W past t p)
    (asks : t.refillValid = true) : p.valid = true ∧ t.ready p.va = false := by
  obtain ⟨missed, refills⟩ := Bool.and_eq_true_iff.mp asks
  rw [inv.miss, Option.isSome_iff_exists] at missed
  obtain ⟨va, held⟩ := missed
  obtain ⟨valid, same⟩ := admitted.1 va held
  exact ⟨valid, same ▸ inv.missing refills va held⟩

/-- Without a response the entries only lose. -/
theorem missing_next (still : t.responds p = false) {va : Va} (missing : t.ready va = false) :
    (t.next p).ready va = false := by
  rw [not_ready_iff] at missing ⊢
  intro e
  have unfilled : t.fills p e = false := by rw [fills, still, Bool.false_and]
  by_contra hits
  have old := hit_next_iff.mp (by simpa using hits)
  rw [unfilled, if_neg Bool.false_ne_true, missing e] at old
  exact Bool.false_ne_true old.2

theorem next {past : List Obs} :
    Waiting (past ++ [(machine ppn entries).obs t p]) (t.next p) where
  miss := by
    rw [pending_concat]
    show (p.valid && !t.ready p.va) = _
    cases missed : (p.valid && !t.ready p.va) <;> simp [machine, missed]
  missing refills va held := by
    have still : t.responds p = false := by
      have value : (t.next p).refill = !t.responds p := rfl
      simpa [value] using refills
    rw [pending_concat] at held
    change (if (p.valid && !t.ready p.va) = true then Option.some p.va else none) =
      Option.some va at held
    have missed : (p.valid && !t.ready p.va) = true := by
      by_contra hits
      rw [if_neg hits] at held
      contradiction
    rw [if_pos missed, Option.some.injEq] at held
    rw [← held]
    exact missing_next still (by simpa using (Bool.and_eq_true_iff.mp missed).2)

end Waiting

/-! ## Over whole runs -/

theorem coherent_of_reaches {past : List Obs} {t : Tlb ppn entries}
    (reached : (machine ppn entries).Reaches (env W) {} past t) :
    Coherent W t ∧ Waiting past t := by
  refine reached.invariant (fun past t => Coherent W t ∧ Waiting past t)
    ⟨Coherent.init, Waiting.init⟩ ?_
  intro past t p _ inv admitted
  obtain ⟨entries, waiting⟩ := inv
  refine ⟨entries.next fun response => ⟨admitted.2 response, ?_⟩, Waiting.next⟩
  exact (waiting.needed admitted (Bool.and_eq_true_iff.mp response).1).2

/-- What a cycle does to the requests of the refill port and to what they bring. -/
structure Refills (t : Tlb ppn entries) (p : TlbPort ppn) : Prop where
  /-- A flush leaves nothing, whatever comes with it. -/
  flushed : p.flush = true → ∀ va, (t.next p).ready va = false
  /-- Only a request that misses is sent to the walker, ... -/
  needed : t.refillValid = true → p.valid = true ∧ t.ready p.va = false
  /-- ... and one that misses is sent in the next cycle, unless its response has just come. -/
  asks : (t.next p).refillValid = (p.valid && !t.ready p.va && !t.responds p)
  /-- A response makes its request hit. -/
  filled : t.responds p = true → p.flush = false → (t.next p).ready p.va = true

theorem refills {past : List Obs} (room : 0 < entries)
    (reached : (machine ppn entries).Reaches (env W) {} past t) (admitted : env W past t p) :
    Refills t p := by
  obtain ⟨inv, waiting⟩ := coherent_of_reaches reached
  refine ⟨fun flush va => ?_, waiting.needed admitted, rfl, fun response flush => ?_⟩
  · rw [not_ready_iff]
    intro e
    by_contra hits
    have kept := (hit_next_iff.mp (by simpa using hits)).1
    rw [flush] at kept
    contradiction
  · have place : t.evict < entries := by
      rcases inv.evicts with first | inner <;> omega
    rw [ready_iff]
    refine ⟨⟨t.evict, place⟩, hit_next_iff.mpr ⟨flush, ?_⟩⟩
    have filled : t.fills p ⟨t.evict, place⟩ = true := by simp [fills, response]
    rw [if_pos filled]
    exact ⟨rfl, .inr rfl⟩

section Endless

variable (u : Nat → TlbPort ppn)

variable (entries) in
/-- The state of cycle `n`. -/
def stateOf (n : Nat) : Tlb ppn entries := (machine ppn entries).stateAt {} u n

variable (entries) in
/-- An endless run of admitted cycles. -/
def Run (W : Translation ppn) : Prop :=
  ∀ n, env W ((machine ppn entries).history {} u n) (stateOf entries u n) (u n)

variable (entries) in
/-- If the walker is asked again and again, some response comes without a flush. -/
def Answering : Prop :=
  (∀ n, ∃ m, n ≤ m ∧ (stateOf entries u m).refillValid = true) →
    ∀ n, ∃ m, n ≤ m ∧ (stateOf entries u m).responds (u m) = true ∧ (u m).flush = false

variable {u}

theorem reaches_of_run (run : Run entries u W) (n : Nat) : (machine ppn entries).Reaches (env W) {}
    ((machine ppn entries).history {} u n) (stateOf entries u n) := by
  induction n with
  | zero => exact .start
  | succ n ih => exact ih.cycle (run n)

/-- A request that misses is held. -/
theorem held_next (run : Run entries u W) {n : Nat} (valid : (u n).valid = true)
    (misses : (stateOf entries u n).ready (u n).va = false) :
    (u (n + 1)).valid = true ∧ (u (n + 1)).va = (u n).va := by
  apply (run (n + 1)).1
  show pending ((machine ppn entries).history {} u n ++ [_]) = _
  rw [pending_concat]
  show (if ((u n).valid && !(stateOf entries u n).ready (u n).va) = true then _ else _) = _
  rw [valid, misses]
  rfl

/-- **Every request is translated**: it is sent to the walker until it hits. -/
theorem hits_eventually (room : 0 < entries) (run : Run entries u W)
    (answering : Answering entries u) {n : Nat} (valid : (u n).valid = true) :
    ∃ m, n ≤ m ∧ (u m).valid = true ∧ (u m).va = (u n).va ∧
      (stateOf entries u m).ready (u n).va = true := by
  by_contra never
  -- otherwise it stands for ever, misses for ever, and is sent again and again
  have stands : ∀ d, (u (n + d)).valid = true ∧ (u (n + d)).va = (u n).va ∧
      (stateOf entries u (n + d)).ready (u n).va = false := by
    intro d
    induction d with
    | zero =>
      refine ⟨valid, rfl, ?_⟩
      by_contra hits
      exact never ⟨n, Nat.le_refl n, valid, rfl, by simpa using hits⟩
    | succ d ih =>
      obtain ⟨here, same, misses⟩ := ih
      obtain ⟨stays, kept⟩ := held_next run here (same ▸ misses)
      refine ⟨stays, kept.trans same, ?_⟩
      by_contra hits
      rw [Bool.not_eq_false] at hits
      exact never ⟨n + d + 1, by omega, stays, kept.trans same, hits⟩
  have sent : ∀ d, (stateOf entries u (n + d + 1)).refillValid =
      !(stateOf entries u (n + d)).responds (u (n + d)) := by
    intro d
    obtain ⟨here, same, misses⟩ := stands d
    have asks := (refills room (reaches_of_run run (n + d)) (run (n + d))).asks
    rw [here, same, misses, Bool.not_false, Bool.true_and, Bool.true_and] at asks
    exact asks
  have again : ∀ k, ∃ m, k ≤ m ∧ (stateOf entries u m).refillValid = true := by
    intro k
    by_cases response : (stateOf entries u (n + k)).responds (u (n + k)) = true
    · have silent := sent k
      rw [response] at silent
      have quiet : (stateOf entries u (n + (k + 1))).responds (u (n + (k + 1))) = false := by
        rw [responds, show (stateOf entries u (n + (k + 1))).refillValid = false from silent,
          Bool.false_and]
      exact ⟨n + (k + 1) + 1, by omega, by rw [sent, quiet]; rfl⟩
    · exact ⟨n + k + 1, by omega, by rw [sent]; simpa using response⟩
  obtain ⟨m, later, response, kept⟩ := answering again n
  obtain ⟨d, rfl⟩ := Nat.exists_eq_add_of_le later
  have filled := (refills room (reaches_of_run run (n + d)) (run (n + d))).filled response kept
  rw [(stands d).2.1] at filled
  have misses := (stands (d + 1)).2.2
  rw [show stateOf entries u (n + (d + 1)) = (stateOf entries u (n + d)).next (u (n + d)) from rfl,
    filled] at misses
  contradiction

end Endless

/-- **The buffer is a coherent cache of the walk.**  In every state a run reaches, no
address meets two entries and a hit returns what the walk finds; every cycle sends the
misses, and only those, to the walker; and along every endless run each request is
translated at last. -/
theorem coherent_cache (room : 0 < entries) (W : Translation ppn) :
    (∀ past (t : Tlb ppn entries), (machine ppn entries).Reaches (env W) {} past t →
      (∀ va e e', t.hit va e = true → t.hit va e' = true → e = e') ∧
      (∀ va, t.ready va = true → (∀ f, t.flag va f = f (W.pte va).flags) ∧ t.pa va = W.pa va) ∧
      (∀ p, t.ready p.va = true → t.pageFault p = W.pageFault p) ∧
      ∀ p, env W past t p → Refills t p) ∧
    ∀ u : Nat → TlbPort ppn, Run entries u W → Answering entries u →
      ∀ n, (u n).valid = true → ∃ m, n ≤ m ∧ (u m).valid = true ∧ (u m).va = (u n).va ∧
        (stateOf entries u m).ready (u n).va = true := by
  constructor
  · intro past t reached
    obtain ⟨inv, -⟩ := coherent_of_reaches reached
    refine ⟨inv.unique, fun va hits => inv.answers hits, fun p hits => ?_,
      fun p admitted => refills room reached admitted⟩
    simp only [pageFault, accessAllowed, (inv.answers hits).1, Translation.pageFault]
  · intro u run answering n valid
    exact hits_eventually room run answering valid

/-! ### A four-mega page -/

/-- Every address lies in a four-mega page of its own first index. -/
def megaPages : Translation 22 where
  pte va := ⟨va.vpn1.setWidth 22 <<< 10, { a := true, r := true, x := true }⟩
  is4mega _ := true
  wide va other _ same := ⟨rfl, by rw [same]⟩

/-- A fetch of one page, held for ever, with a walker that answers at once. -/
def fetchPort : TlbPort 22 where
  flush := false
  privLvl := PrivLvlS
  valid := true
  va := 0x00403
  read := false
  write := false
  execute := true
  refillReady := true
  refillPte := megaPages.pte 0x00403
  refill4mega := true

/-- After the refill, another page of the four megabytes hits, at its own place; and the
fetch is translated at last. -/
theorem coherent_cache_mega :
    (stateOf 2 (fun _ => fetchPort) 3).pa 0x004ff = 0x004ff ∧
      ∃ m, (stateOf 2 (fun _ => fetchPort) m).ready 0x00403 = true := by
  have run : Run 2 (fun _ => fetchPort) megaPages := by
    intro n
    refine ⟨fun va held => ⟨rfl, ?_⟩, fun _ => ⟨rfl, rfl⟩⟩
    cases n with
    | zero => contradiction
    | succ n =>
      have last : pending ((machine 22 2).history {} (fun _ => fetchPort) n ++ [_]) = some va :=
        held
      rw [pending_concat] at last
      split at last
      · exact Option.some.inj last
      · contradiction
  have answering : Answering 2 (fun _ => fetchPort) := by
    intro asked n
    obtain ⟨m, later, asks⟩ := asked n
    exact ⟨m, later, by rw [responds, asks]; rfl, rfl⟩
  obtain ⟨always, eventually⟩ := coherent_cache (by decide : 0 < 2) megaPages
  constructor
  · have hits : (stateOf 2 (fun _ => fetchPort) 3).ready 0x004ff = true := by decide
    exact ((always _ _ (reaches_of_run run 3)).2.1 0x004ff hits).2.trans (by decide)
  · obtain ⟨m, -, -, -, hits⟩ := eventually _ run answering 0 rfl
    exact ⟨m, hits⟩

end SnitchCluster.Core.Tlb
