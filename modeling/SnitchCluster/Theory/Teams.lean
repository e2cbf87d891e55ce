/-
# Theory.Teams -- agents that meet in teams

Agents belong to teams and wait for their own team only.  If a word that is ever written has a team
that owns it, and no other team touches it, then conflicts are conflicts within a team, and its
barriers order them (`Teamed.guarded`).  What the phases leave is then found phase by phase: a word
that an agent writes is what this agent leaves (`Teamed.reference_own`), and any other stays
(`Teamed.reference_keep`).
-/
import SnitchCluster.Theory.Pipelines

namespace SnitchCluster.Theory.Supersteps

open Loops

universe u v w

variable {P : Type u} {A : Type v} {Loc : Type w} {Val : Type w}

/-- What the agents of teams touch: `R` and `W` of an agent in a phase. -/
structure Program.Teamed (prog : Program P A) (S : Semantics A Loc Val) (team : Nat → Nat)
    (owner : Loc → Option Nat) (R W : P → Nat → Loc → Prop) : Prop where
  waits : ∀ p ∈ prog.schedule, ∀ i < prog.agents, ∀ j < prog.agents, team i = team j →
    prog.waits p i j = true
  within : ∀ p ∈ prog.schedule, ∀ i < prog.agents, S.Within (R p i) (W p i) (prog.code p i)
  reads : ∀ p ∈ prog.schedule, ∀ i < prog.agents, ∀ x, R p i x → ∀ t, owner x = some t →
    t = team i
  writes : ∀ p ∈ prog.schedule, ∀ i < prog.agents, ∀ x, W p i x → owner x = some (team i)
  apart : ∀ p ∈ prog.schedule, ∀ i < prog.agents, ∀ j < prog.agents, i ≠ j → team i = team j →
    ∀ x, W p i x → ¬R p j x ∧ ¬W p j x

variable {prog : Program P A} {S : Semantics A Loc Val} {team : Nat → Nat}
  {owner : Loc → Option Nat} {R W : P → Nat → Loc → Prop} {p : P} {i k : Nat} {m : Loc → Val}
  {s : State Loc Val} {x : Loc}

namespace Program.Teamed

section

variable (teamed : prog.Teamed S team owner R W)

include teamed

/-- What an agent writes only its team touches. -/
theorem same_team {q : P} {j : Nat} {a b : A}
    (planned : p ∈ prog.schedule) (agent : i < prog.agents) (member : a ∈ prog.code p i)
    (planned' : q ∈ prog.schedule) (other : j < prog.agents) (member' : b ∈ prog.code q j)
    (written : S.writes a x) (touched : S.reads b x ∨ S.writes b x) : team i = team j := by
  have mine := teamed.writes p planned i agent x ((teamed.within p planned i agent a member).2 x
    written)
  have theirs : R q j x ∨ W q j x := touched.elim ((teamed.within q planned' j other b member').1 x)
    fun written => .inr ((teamed.within q planned' j other b member').2 x written)
  rcases theirs with read | write
  · exact teamed.reads q planned' j other x read _ mine
  · exact Option.some.inj (mine.symm.trans (teamed.writes q planned' j other x write))

theorem raceFree : prog.RaceFree S := by
  intro p planned i agent j other different a member b member' x written
  have mine := (teamed.within p planned i agent a member).2 x written
  have within := teamed.within p planned j other b member'
  have alien (same : team i = team j) :=
    teamed.apart p planned i agent j other different same x mine
  constructor
  · intro read
    have alien := alien (teamed.same_team planned agent member planned other member' written
      (.inl read))
    exact (within.1 x read).elim alien.1 alien.2
  · intro write
    exact (alien (teamed.same_team planned agent member planned other member' written
      (.inr write))).2 (within.2 x write)

/-- **Conflicts are within a team**, whose barrier stands between the phases. -/
theorem guarded (needs : P → Nat → Nat → Bool) : prog.Guarded S needs := by
  intro i agent j other _ k k' earlier ⟨a, member, b, member', x, touched⟩
  obtain ⟨p, phase, inner⟩ := mem_codeAt member
  obtain ⟨q, phase', inner'⟩ := mem_codeAt member'
  have planned := List.mem_of_getElem? phase
  have planned' := List.mem_of_getElem? phase'
  have same : team i = team j := by
    rcases touched with ⟨written, touch⟩ | ⟨touch, written⟩
    · exact (teamed.same_team planned other inner planned' agent inner' written touch).symm
    · exact teamed.same_team planned' agent inner' planned other inner written touch
  exact .wait le_rfl earlier phase (.inl (teamed.waits p planned i agent j other same))

/-- **Every run leaves what the phases leave one after the other.** -/
theorem memory_done
    (reached : (prog.machine S).Reachable (start m) s) (some_agent : 0 < prog.agents)
    (ended : ∀ i < prog.agents, prog.schedule.length ≤ (s.place i).1) :
    s.memory = prog.reference S m prog.schedule.length := by
  have reached : (prog.machine S).Reaches (prog.Awaits fun _ _ _ => false) (start m) s :=
    reached.mono fun _ _ _ _ _ _ _ _ needed => by cases needed
  exact Program.memory_done teamed.raceFree (teamed.guarded _) reached some_agent ended

/-- **What an agent writes is what it leaves.** -/
theorem reference_own (phase : prog.schedule[k]? = some p)
    (agent : i < prog.agents) (mine : W p i x) :
    prog.reference S m (k + 1) x = after S.run (prog.code p i) (prog.reference S m k) x := by
  have planned := List.mem_of_getElem? phase
  rw [reference_succ phase]
  refine teamed.raceFree.phase_own planned agent _ fun j other different a member written => ?_
  have theirs := (teamed.within p planned j other a member).2 x written
  have same : team i = team j := Option.some.inj
    ((teamed.writes p planned i agent x mine).symm.trans (teamed.writes p planned j other x theirs))
  exact (teamed.apart p planned i agent j other (Ne.symm different) same x mine).2 theirs

/-- What no agent writes. -/
theorem reference_keep (phase : prog.schedule[k]? = some p) (nobody : ∀ i < prog.agents, ¬W p i x) :
    prog.reference S m (k + 1) x = prog.reference S m k x := by
  have planned := List.mem_of_getElem? phase
  rw [reference_succ phase]
  exact phase_frame _ fun j agent a member written =>
    nobody j agent ((teamed.within p planned j agent a member).2 x written)

end

/-! ### A team on its own

The words that are not another team's see the phases of a program of this team only. -/

variable {q : Program P A} {n c : Nat} {m' : Loc → Val}

section

variable (teamed : prog.Teamed S team owner R W) (agents : prog.agents = n * q.agents)
    (teams : ∀ i < prog.agents, team i = i / q.agents)

include teamed agents teams

theorem phase_team (planned : p ∈ prog.schedule) (here : c < n)
    (code : ∀ j < q.agents, prog.code p (c * q.agents + j) = q.code p j)
    (same : ∀ x, (∀ t, owner x = some t → t = c) → m x = m' x)
    (mine : ∀ t, owner x = some t → t = c) : prog.phase S p m x = q.phase S p m' x := by
  have member {k j : Nat} (row : k < n) (column : j < q.agents) :
      k * q.agents + j < prog.agents ∧ team (k * q.agents + j) = k := by
    have inside : k * q.agents + j < prog.agents := agents ▸ grid_lt row column
    exact ⟨inside, (teams _ inside).trans (grid_div column)⟩
  -- the agents of the teams so far
  have progress : ∀ k ≤ n, ∀ x, (∀ t, owner x = some t → t = c) →
      loop (k * q.agents) (fun i => after S.run (prog.code p i)) m x =
        if c < k then q.phase S p m' x else m' x := by
    intro k
    induction k with
    | zero =>
      intro _ x mine
      rw [Nat.zero_mul, loop_zero, if_neg (Nat.not_lt_zero c), same x mine]
    | succ k ih =>
      intro row x mine
      have so_far := ih (Nat.le_of_succ_le row)
      rw [Nat.succ_mul, loop_append]
      by_cases own : k = c
      · subst own
        rw [if_pos (Nat.lt_succ_self k)]
        refine loop_invariant (fun j (m'' : Loc → Val) => ∀ x,
          (∀ t, owner x = some t → t = k) → m'' x =
            loop j (fun j => after S.run (q.code p j)) m' x) ?_ ?_ x mine
        · intro x mine
          rw [so_far x mine, if_neg (Nat.lt_irrefl k), loop_zero]
        · intro j column m'' inv x mine
          obtain ⟨agent, own⟩ := member row column
          rw [loop_succ, code j column]
          refine after_congr (fun x => ∀ t, owner x = some t → t = k) (fun a inner y read => ?_)
            inv x mine
          rw [← code j column] at inner
          rcases (teamed.within p planned _ agent a inner).1 y read with read | written
          · exact fun t owned => (teamed.reads p planned _ agent y read t owned).trans own
          · intro t owned
            have writer := teamed.writes p planned _ agent y written
            rw [own] at writer
            exact Option.some.inj (owned.symm.trans writer)
      · rw [loop_still (fun m : Loc → Val => m x) fun j column m'' => ?_, so_far x mine]
        · exact if_congr (by omega) rfl rfl
        · obtain ⟨agent, theirs⟩ := member row column
          refine after_frame fun a inner written => own ?_
          have writer := teamed.writes p planned _ agent x
            ((teamed.within p planned _ agent a inner).2 x written)
          rw [theirs] at writer
          exact mine k writer
  rw [Program.phase, agents, progress n le_rfl x mine, if_pos here]

/-- **A team's words after the first phases.** -/
theorem reference_team (here : c < n)
    (phases : ∀ b < k, ∃ p, prog.schedule[b]? = some p ∧ q.schedule[b]? = some p ∧
      ∀ j < q.agents, prog.code p (c * q.agents + j) = q.code p j) :
    ∀ x, (∀ t, owner x = some t → t = c) → prog.reference S m k x = q.reference S m k x := by
  induction k with
  | zero => exact fun _ _ => rfl
  | succ k ih =>
    intro x mine
    obtain ⟨p, phase, phase', code⟩ := phases k (Nat.lt_succ_self k)
    rw [reference_succ phase, reference_succ phase']
    exact teamed.phase_team agents teams (List.mem_of_getElem? phase) here code
      (ih fun b small => phases b (Nat.lt_succ_of_lt small)) mine

end

end Program.Teamed

end SnitchCluster.Theory.Supersteps
