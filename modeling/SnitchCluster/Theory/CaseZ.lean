/-
# Theory.CaseZ -- first arm taken, last assignment kept

A pattern fixes some bits of a word and leaves the others free.  A case
statement over patterns takes the first arm one of whose patterns the word
meets; `firstMatch` is that selection, and `firstMatch_mem` is the only fact its
users need to argue arm by arm.  A run of guarded assignments keeps the last one
whose guard holds; `lastWrite` is that one.
-/
import Mathlib.Data.List.Forall2
import Mathlib.Data.List.Induction

namespace SnitchCluster.Theory

/-- `care` marks the bits that matter, `value` is what they must be. -/
structure BitPat (width : Nat) where
  care : BitVec width
  value : BitVec width
  deriving DecidableEq, Repr

namespace BitPat

variable {width : Nat}

def test (p : BitPat width) (word : BitVec width) : Bool := word &&& p.care == p.value

/-- `word inside {patterns}`. -/
def inside (word : BitVec width) (patterns : List (BitPat width)) : Bool :=
  patterns.any fun p => p.test word

/-- The arm of a case statement: the patterns that select it and what it yields. -/
abbrev Arm (width : Nat) (β : Type) := List (BitPat width) × β

/-- The first arm the word meets, or the default. -/
def firstMatch {β : Type} (arms : List (Arm width β)) (default : β) (word : BitVec width) : β :=
  match arms.find? fun arm => inside word arm.1 with
  | some arm => arm.2
  | none => default

/-- A case statement yields the default or one of its arms, and then the word
meets a pattern of that arm. -/
theorem firstMatch_mem {β : Type} (arms : List (Arm width β)) (default : β)
    (word : BitVec width) :
    firstMatch arms default word = default ∨
      ∃ arm ∈ arms, inside word arm.1 = true ∧ firstMatch arms default word = arm.2 := by
  unfold firstMatch
  cases found : arms.find? fun arm => inside word arm.1 with
  | none => exact Or.inl rfl
  | some arm =>
    have met := List.find?_some found
    exact Or.inr ⟨arm, List.mem_of_find?_eq_some found, by simpa using met, rfl⟩

/-- A word that meets an arm takes one that it meets. -/
theorem firstMatch_met {β : Type} {arms : List (Arm width β)} (default : β) {word : BitVec width}
    (met : ∃ arm ∈ arms, inside word arm.1 = true) :
    ∃ arm ∈ arms, inside word arm.1 = true ∧ firstMatch arms default word = arm.2 := by
  have found : (arms.find? fun arm => inside word arm.1).isSome = true := by
    rw [List.find?_isSome]
    exact met
  obtain ⟨arm, first⟩ := Option.isSome_iff_exists.mp found
  have hit := List.find?_some first
  exact ⟨arm, List.mem_of_find?_eq_some first, hit, by simp [firstMatch, first]⟩

/-- What holds of the default and of every arm holds of the case statement. -/
theorem firstMatch_all {β : Type} {arms : List (Arm width β)} {default : β} (P : β → Prop)
    (onDefault : P default) (onArms : ∀ arm ∈ arms, P arm.2) (word : BitVec width) :
    P (firstMatch arms default word) := by
  rcases firstMatch_mem arms default word with h | ⟨arm, member, -, h⟩
  · rw [h]; exact onDefault
  · rw [h]; exact onArms arm member

section

variable {β : Type} {front : List (Arm width β)} (back : List (Arm width β)) (default : β)
    {word : BitVec width}

include back default

/-- A word one of the front arms meets never reaches the arms behind. -/
theorem firstMatch_front (met : ∃ arm ∈ front, inside word arm.1 = true) :
    firstMatch (front ++ back) default word = firstMatch front default word := by
  have found : (front.find? fun arm => inside word arm.1).isSome = true := by
    rw [List.find?_isSome]
    exact met
  obtain ⟨arm, first⟩ := Option.isSome_iff_exists.mp found
  simp [firstMatch, List.find?_append, first]

/-- A word that meets none of the front arms reaches the arms behind. -/
theorem firstMatch_skip (missed : ∀ arm ∈ front, inside word arm.1 = false) :
    firstMatch (front ++ back) default word = firstMatch back default word := by
  have none : front.find? (fun arm => inside word arm.1) = none := by
    rw [List.find?_eq_none]
    intro arm member
    rw [missed arm member]
    exact Bool.false_ne_true
  simp [firstMatch, List.find?_append, none]

end

/-- Two patterns that fix some bit differently. -/
def apart (p q : BitPat width) : Bool := p.care &&& q.care &&& (p.value ^^^ q.value) != 0

/-- No word meets two patterns that are apart. -/
theorem apart_sound {p q : BitPat width} (differ : apart p q = true) {word : BitVec width}
    (left : p.test word = true) : q.test word = false := by
  simp only [apart, test, bne_iff_ne, beq_iff_eq, beq_eq_false_iff_ne] at *
  intro right
  refine differ ?_
  rw [← left, ← right]
  ext k
  simp
  grind

/-- Where no arm of another value shares a word with a pattern, its value is taken. -/
theorem firstMatch_value {β : Type} {arms : List (Arm width β)} {arm : Arm width β}
    (member : arm ∈ arms) {p : BitPat width} (among : p ∈ arm.1)
    (others : ∀ other ∈ arms, other.2 = arm.2 ∨ ∀ q ∈ other.1, apart p q = true) (default : β)
    {word : BitVec width} (met : p.test word = true) : firstMatch arms default word = arm.2 := by
  have found : (arms.find? fun arm => inside word arm.1).isSome = true := by
    rw [List.find?_isSome]
    exact ⟨arm, member, List.any_eq_true.mpr ⟨p, among, met⟩⟩
  obtain ⟨taken, first⟩ := Option.isSome_iff_exists.mp found
  have hit := List.find?_some first
  rcases others taken (List.mem_of_find?_eq_some first) with here | differ
  · simp [firstMatch, first, here]
  · obtain ⟨q, among, other⟩ := List.any_eq_true.mp hit
    rw [apart_sound (differ q among) met] at other
    contradiction

/-- A word that meets one of the patterns meets none that all of them are apart from. -/
theorem outside {ps qs : List (BitPat width)} (clear : ∀ p ∈ ps, ∀ q ∈ qs, apart p q = true)
    {word : BitVec width} (met : inside word ps = true) : inside word qs = false := by
  obtain ⟨p, among, hit⟩ := List.any_eq_true.mp met
  rw [inside, List.any_eq_false]
  intro q member
  simpa using apart_sound (clear p among q member) hit

/-- Every word of the pattern meets another. -/
def within (p q : BitPat width) : Bool :=
  q.care &&& p.care == q.care && p.value &&& q.care == q.value

theorem within_sound {p q : BitPat width} (inner : within p q = true) {word : BitVec width}
    (met : p.test word = true) : q.test word = true := by
  simp only [within, test, Bool.and_eq_true, beq_iff_eq] at *
  obtain ⟨care, value⟩ := inner
  rw [← value, ← met, BitVec.and_assoc, BitVec.and_comm p.care, care]

/-- The arm at a place is taken where its words miss those before. -/
theorem firstMatch_at {β : Type} {arms : List (Arm width β)} {arm : Arm width β} {k : Nat}
    (here : arms[k]? = some arm) (default : β) {word : BitVec width}
    (before : ∀ ps ∈ (arms.map Prod.fst).take k, inside word ps = false)
    (met : inside word arm.1 = true) : firstMatch arms default word = arm.2 := by
  induction arms generalizing k with
  | nil => simp at here
  | cons first rest ih =>
    cases k with
    | zero =>
      simp only [List.getElem?_cons_zero, Option.some.injEq] at here
      simp [firstMatch, here, met]
    | succ k =>
      simp only [List.getElem?_cons_succ, List.map_cons, List.take_succ_cons,
        List.forall_mem_cons] at here before
      have missed : ∀ arm ∈ [first], inside word arm.1 = false := by simpa using before.1
      rw [← ih here before.2]
      exact firstMatch_skip rest default missed

/-- Where no other arm shares a word with a pattern, its arm is taken. -/
theorem firstMatch_apart {β : Type} {arms : List (Arm width β)} {p : BitPat width} {b : β}
    (member : ([p], b) ∈ arms)
    (others : ∀ arm ∈ arms, arm = ([p], b) ∨ ∀ q ∈ arm.1, apart p q = true) (default : β)
    {word : BitVec width} (met : p.test word = true) : firstMatch arms default word = b := by
  refine firstMatch_value member (by simp) ?_ default met
  intro arm present
  rcases others arm present with here | differ
  · exact .inl (congrArg Prod.snd here)
  · exact .inr differ

/-- Two case statements over the same patterns take the same arm. -/
theorem firstMatch_related {β γ : Type} {R : β → γ → Prop} {arms : List (Arm width β)}
    {others : List (Arm width γ)} {word : BitVec width}
    (pairs : List.Forall₂ (fun a b => a.1 = b.1 ∧ (inside word a.1 = true → R a.2 b.2)) arms others)
    {d : β} {e : γ} (defaults : R d e) :
    R (firstMatch arms d word) (firstMatch others e word) := by
  induction pairs with
  | nil => exact defaults
  | @cons a b arms others first rest ih =>
    obtain ⟨same, related⟩ := first
    cases met : inside word a.1 with
    | true =>
      have also : inside word b.1 = true := same ▸ met
      simpa [firstMatch, met, also] using related met
    | false =>
      have also : inside word b.1 = false := same ▸ met
      simpa [firstMatch, met, also] using ih

end BitPat

/-! ## Guarded assignments -/

section LastWrite

variable {β : Type}

/-- The value after the assignments, each made if its guard holds. -/
def lastWrite (writes : List (Bool × β)) (old : β) : β :=
  writes.foldl (fun value write => if write.1 then write.2 else value) old

theorem lastWrite_append (front : List (Bool × β)) (guard : Bool) (x old : β) :
    lastWrite (front ++ [(guard, x)]) old = if guard then x else lastWrite front old := by
  simp [lastWrite]

theorem lastWrite_none {writes : List (Bool × β)} (none : ∀ write ∈ writes, write.1 = false)
    (old : β) : lastWrite writes old = old := by
  induction writes using List.reverseRecOn with
  | nil => rfl
  | append_singleton front write ih =>
    obtain ⟨guard, x⟩ := write
    have off : guard = false := none (guard, x) (by simp)
    rw [lastWrite_append, off]
    exact ih fun other earlier => none other (by simp [earlier])

/-- An assignment that is made, and none after it. -/
theorem lastWrite_split (front : List (Bool × β)) {back : List (Bool × β)}
    (none : ∀ write ∈ back, write.1 = false) (x old : β) :
    lastWrite (front ++ (true, x) :: back) old = x := by
  have first : lastWrite (front ++ [(true, x)]) old = x := by
    rw [lastWrite_append, if_pos rfl]
  rw [List.append_cons, lastWrite, List.foldl_append]
  exact (lastWrite_none none _).trans first

/-- Where some assignment is made, the value is one that was assigned. -/
theorem lastWrite_mem (writes : List (Bool × β)) (old : β)
    (made : writes.any Prod.fst = true) : (true, lastWrite writes old) ∈ writes := by
  induction writes using List.reverseRecOn with
  | nil => simp at made
  | append_singleton front write ih =>
    obtain ⟨guard, x⟩ := write
    rw [lastWrite_append]
    cases guard with
    | true => simp
    | false =>
      have earlier := ih (by simpa using made)
      simp [earlier]

end LastWrite

end SnitchCluster.Theory
