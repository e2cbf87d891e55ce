/-
# Kernels.BatchnormRuns -- every run of the tiled batch normalisation

The cluster's loops are a pipeline whose stages keep out of each other's way (`pipe_apart`), and
clusters write rows of their own.  So every run leaves what the tiles leave one after the other,
and whoever reads a buffer finds in it what belongs there.

All that needs a row for every cluster: one without rows goes through no iteration and still stores
a tile at the end, where its uninitialised `prev_oh` and `prev_ci` point.  The layer is right
exactly when there are enough rows (`batchnorm_layer_covers_iff`).
-/
import SnitchCluster.Kernels.Batchnorm

namespace SnitchCluster.Kernels.Batchnorm

open Blas Gemv Theory Theory.Loops Theory.Supersteps

/-! ## The pipeline of a cluster -/

section Pipeline

variable {F : Type} [CommSemiring F]

/-- The loops of a cluster, by iterations. -/
def pipe (l : BatchnormLayer) (cluster_num compute_num : Nat) (before : Nat → Regs)
    (cluster_id : Nat) : Pipeline (Step BatchnormArray Unit F) :=
  (loops l cluster_id compute_num).pipeline (l.items cluster_num cluster_id)
    (regs cluster_id compute_num before) compute_num

/-- Tiles that make up the channels and that the cores divide evenly, and a row for every cluster.
The bounds of the loops are words. -/
structure Fits (l : BatchnormLayer) (cluster_num compute_num : Nat) : Prop where
  channels : 0 < l.CI
  columns : 0 < l.IW
  rows : cluster_num ≤ l.IH
  whole : l.TILE_CI ∣ l.CI
  even : compute_num ∣ l.TILE_CI
  few_columns : l.IW ≤ 2 ^ 32
  few_channels : l.TILE_CI ≤ 2 ^ 32

variable {l : BatchnormLayer} {cluster_num compute_num cluster_id t core : Nat}
  {before : Nat → Regs} {item : Nat × Nat}

namespace Fits

variable (fits : Fits l cluster_num compute_num)

include fits

theorem some_tile : 0 < l.TILE_CI := Nat.pos_of_dvd_of_pos fits.whole fits.channels

theorem some_core : 0 < compute_num := Nat.pos_of_dvd_of_pos fits.even fits.some_tile

section

variable (cluster : cluster_id < cluster_num)

include cluster

theorem first : l.items cluster_num cluster_id ≠ [] ∧
      ∀ t, ∀ item ∈ (l.items cluster_num cluster_id)[t]?,
        is_first cluster_id item = true ↔ t = 0 :=
  items_first cluster (Nat.lt_of_lt_of_le cluster fits.rows) fits.channels fits.whole

/-- Where the item of an iteration is. -/
theorem item_place (here : (l.items cluster_num cluster_id)[t]? = some item) :
    item.1 < l.IH ∧ item.1 % cluster_num = cluster_id ∧ item.2 + l.TILE_CI ≤ l.CI := by
  have member : (item.1, item.2) ∈ l.items cluster_num cluster_id := List.mem_of_getElem? here
  obtain ⟨⟨row, dealt⟩, -, room⟩ := (mem_items cluster fits.some_tile fits.whole).mp member
  exact ⟨row, dealt, room⟩

theorem pipe_load (here : (l.items cluster_num cluster_id)[t]? = some item) :
    ((pipe l cluster_num compute_num before cluster_id).load t :
        List (Step BatchnormArray Unit F)) =
      (if t = 0 then loadWeights l cluster_id else []) ++ loadTile l cluster_id (t % 2) item := by
  have inside := (List.getElem?_eq_some_iff.mp here).1
  have buf := (regs_buf F l cluster_id compute_num
    (r := regs cluster_id compute_num before 0) ⟨rfl, rfl⟩ inside.le).2
  simp only [pipe, TiledLoop.pipeline, here, Option.map_some, Option.getD_some]
  refine (load_eq buf (fits.item_place cluster here).2.2).trans (congrArg (· ++ _) ?_)
  exact if_congr ((fits.first cluster).2 t item here) rfl rfl

theorem pipe_compute (here : (l.items cluster_num cluster_id)[t]? = some item) :
    ((pipe l cluster_num compute_num before cluster_id).compute t core :
        List (Step BatchnormArray Unit F)) = (dealtRows compute_num 0 l.TILE_CI).flatMap
        (tileChannel l cluster_id compute_num (t % 2) item core) := by
  have inside := (List.getElem?_eq_some_iff.mp here).1
  obtain ⟨read, write⟩ := regs_buf F l cluster_id compute_num
    (r := regs cluster_id compute_num before (core + 1)) ⟨rfl, rfl⟩ inside.le
  have ssr := regs_ssr F l cluster_id compute_num
    (r := regs cluster_id compute_num before (core + 1)) (fits.first cluster).2 here
  simp only [pipe, TiledLoop.pipeline, here, Option.map_some, Option.getD_some]
  exact compute_eq read write ssr fits.some_tile fits.even fits.columns fits.few_columns
    fits.few_channels

theorem pipe_store (here : (l.items cluster_num cluster_id)[t]? = some item) :
    ((pipe l cluster_num compute_num before cluster_id).store t :
        List (Step BatchnormArray Unit F)) = storeTile l cluster_id (t % 2) item := by
  have inside := (List.getElem?_eq_some_iff.mp here).1
  obtain ⟨row, tile⟩ := regs_prev F l cluster_id compute_num
    (r := regs cluster_id compute_num before 0) here
  have read := (regs_buf F l cluster_id compute_num
    (r := regs cluster_id compute_num before 0) ⟨rfl, rfl⟩ inside).1
  have flip : ∀ b : Bool, (!b).toNat = (b.toNat + 1) % 2 := by decide
  have buf := flip ((loops l cluster_id compute_num : TiledLoop (Step _ _ F) _ _).regsAt
    (l.items cluster_num cluster_id) (regs cluster_id compute_num before 0) (t + 1)).read_buf
  rw [read] at buf
  exact store_eq (buf.trans (by omega)) row tile (fits.item_place cluster here).2.2

end

end Fits

end Pipeline

/-! ## Who touches what -/

section Footprints

variable {F : Type} [CommSemiring F]

/-- What a word is for: an operand or a result in external memory, a part of the TCDM of a cluster
(the halves of the buffers by their indices), or a register. -/
inductive Use
  | source
  | target
  | operand (cluster_id b : Nat)
  | weights (cluster_id : Nat)
  | result (cluster_id b : Nat)
  | own (agent : Nat)

def BatchnormLayer.use (l : BatchnormLayer) : Mem → Use
  | .ext .ofmap _ => .target
  | .ext _ _ => .source
  | .own agent _ => .own agent
  | .loc _ cluster_id e =>
    if e < l.tile_size then .operand cluster_id 0
    else if e < 2 * l.tile_size then .operand cluster_id 1
    else if e < 2 * l.tile_size + 2 * l.CI then .weights cluster_id
    else if e < 3 * l.tile_size + 2 * l.CI then .result cluster_id 0
    else .result cluster_id 1

variable {l : BatchnormLayer} {cluster_num compute_num cluster_id b e t core : Nat}
  {before : Nat → Regs} {item : Nat × Nat} {x : Mem}

theorem use_ifmap (inside : e < l.tile_size) :
    l.use (l.ifmap cluster_id (b % 2 * l.tile_size + e)) = .operand cluster_id (b % 2) := by
  rcases Nat.mod_two_eq_zero_or_one b with even | odd
  · simp [BatchnormLayer.use, BatchnormLayer.ifmap, tcdm, even, inside]
  · simp only [BatchnormLayer.use, BatchnormLayer.ifmap, tcdm, odd]
    rw [if_neg (by omega), if_pos (by omega)]

theorem use_gamma (inside : e < l.CI) : l.use (l.gamma cluster_id e) = .weights cluster_id := by
  simp only [BatchnormLayer.use, BatchnormLayer.gamma, tcdm, map_size.1]
  rw [if_neg (by omega), if_neg (by omega), if_pos (by omega)]

theorem use_beta (inside : e < l.CI) : l.use (l.beta cluster_id e) = .weights cluster_id := by
  simp only [BatchnormLayer.use, BatchnormLayer.beta, BatchnormLayer.weights_size, tcdm, map_size.1]
  rw [if_neg (by omega), if_neg (by omega), if_pos (by omega)]

theorem use_ofmap (inside : e < l.tile_size) :
    l.use (l.ofmap cluster_id (b % 2 * l.tile_size + e)) = .result cluster_id (b % 2) := by
  simp only [BatchnormLayer.use, BatchnormLayer.ofmap, BatchnormLayer.weights_size, tcdm,
    map_size.1]
  rcases Nat.mod_two_eq_zero_or_one b with even | odd
  · rw [even, if_neg (by omega), if_neg (by omega), if_neg (by omega), if_pos (by omega)]
  · rw [odd, if_neg (by omega), if_neg (by omega), if_neg (by omega), if_neg (by omega)]

/-- What a core writes of the output buffer. -/
def BatchnormLayer.part (l : BatchnormLayer) (cluster_id compute_num b core : Nat) (x : Mem) :
    Prop :=
  ∃ w < l.IW, ∃ ci ∈ dealtRows compute_num 0 l.TILE_CI,
    x = l.ofmap cluster_id (b * l.tile_size + (w * l.TILE_CI + (ci + core)))

theorem use_part (even : compute_num ∣ l.TILE_CI) (worker : core < compute_num)
    (mine : l.part cluster_id compute_num (b % 2) core x) :
    l.use x = .result cluster_id (b % 2) := by
  obtain ⟨w, column, ci, dealt, rfl⟩ := mine
  obtain ⟨-, room⟩ := (mem_columns (Nat.zero_lt_of_lt worker) even).mp dealt
  exact use_ofmap (grid_lt column (by omega))

theorem part_apart (even : compute_num ∣ l.TILE_CI) {core' : Nat} (worker : core < compute_num)
    (worker' : core' < compute_num) (other : core ≠ core')
    (mine : l.part cluster_id compute_num b core x) :
    ¬l.part cluster_id compute_num b core' x := by
  obtain ⟨w, _, ci, dealt, rfl⟩ := mine
  rintro ⟨w', _, ci', dealt', same⟩
  obtain ⟨⟨q, rfl⟩, room⟩ := (mem_columns (Nat.zero_lt_of_lt worker) even).mp dealt
  obtain ⟨⟨q', rfl⟩, room'⟩ := (mem_columns (Nat.zero_lt_of_lt worker) even).mp dealt'
  injection same with _ _ same
  have same : w * l.TILE_CI + (compute_num * q + core) =
      w' * l.TILE_CI + (compute_num * q' + core') := by omega
  have channels := (grid_inj (by omega) (by omega) same).2
  rw [Nat.mul_comm, Nat.mul_comm compute_num q'] at channels
  exact other (grid_inj worker worker' channels).2

/-! ### The stages -/

omit [CommSemiring F] in
theorem loadTile_within :
    Statement.Within (fun x => l.use x = .source) (fun x => l.use x = .operand cluster_id (b % 2))
      (loadTile l cluster_id (b % 2) item : List (Step BatchnormArray Unit F)) := by
  refine Semantics.within_map.mpr fun e inside => ⟨?_, ?_⟩
  · rintro x (rfl | rfl | rfl) <;> exact .inl rfl
  · rintro x rfl
    exact use_ifmap inside

omit [CommSemiring F] in
theorem loadWeights_within :
    Statement.Within (fun x => l.use x = .source) (fun x => l.use x = .weights cluster_id)
      (loadWeights l cluster_id : List (Step BatchnormArray Unit F)) := by
  refine Semantics.within_append.mpr ⟨Semantics.within_map.mpr fun e inside => ⟨?_, ?_⟩,
    Semantics.within_map.mpr fun e inside => ⟨?_, ?_⟩⟩
  · rintro x (rfl | rfl | rfl) <;> exact .inl rfl
  · rintro x rfl
    exact use_gamma inside
  · rintro x (rfl | rfl | rfl) <;> exact .inl rfl
  · rintro x rfl
    exact use_beta inside

omit [CommSemiring F] in
theorem storeTile_within :
    Statement.Within (fun x => l.use x = .result cluster_id (b % 2))
      (fun x => ∃ e < l.tile_size, x = .ext .ofmap (l.element item e))
      (storeTile l cluster_id (b % 2) item : List (Step BatchnormArray Unit F)) := by
  refine Semantics.within_map.mpr fun e inside => ⟨?_, fun x written => ⟨e, inside, written⟩⟩
  rintro x (rfl | rfl | rfl) <;> exact .inl (use_ofmap inside)

theorem channels_within (even : compute_num ∣ l.TILE_CI) (worker : core < compute_num)
    (room : item.2 + l.TILE_CI ≤ l.CI) :
    Statement.Within
      (fun x => l.use x = .operand cluster_id (b % 2) ∨ l.use x = .weights cluster_id)
      (fun x => l.part cluster_id compute_num (b % 2) core x ∨
        ∃ r, x = register cluster_id compute_num core r)
      ((dealtRows compute_num 0 l.TILE_CI).flatMap
        (tileChannel l cluster_id compute_num (b % 2) item core) :
          List (Step BatchnormArray Unit F)) := by
  intro a member
  obtain ⟨ci, dealt, inner⟩ := List.mem_flatMap.mp member
  obtain ⟨-, inside⟩ := (mem_columns (Nat.zero_lt_of_lt worker) even).mp dealt
  refine channel_within.mono ?_ ?_ a inner
  · rintro x (rfl | rfl | ⟨w, column, rfl⟩)
    · exact .inl (.inr (use_gamma (by omega)))
    · exact .inl (.inr (use_beta (by omega)))
    · exact .inl (.inl (use_ifmap (grid_lt column (by omega))))
  · rintro x (rfl | rfl | ⟨w, column, rfl⟩)
    · exact .inr ⟨0, rfl⟩
    · exact .inr ⟨1, rfl⟩
    · exact .inl ⟨w, column, ci, dealt, rfl⟩

variable (fits : Fits l cluster_num compute_num) (cluster : cluster_id < cluster_num)
  (here : (l.items cluster_num cluster_id)[t]? = some item)

include fits cluster here

theorem load_within :
    Statement.Within (fun x => l.use x = .source)
      (fun x => l.use x = .operand cluster_id (t % 2) ∨ t = 0 ∧ l.use x = .weights cluster_id)
      ((pipe l cluster_num compute_num before cluster_id).load t :
        List (Step BatchnormArray Unit F)) := by
  rw [fits.pipe_load cluster here]
  refine Semantics.within_append.mpr ⟨?_, loadTile_within.mono (fun _ => .inl) fun _ => .inl⟩
  split
  · next first =>
      exact loadWeights_within.mono (fun _ => .inl) fun x written => .inr ⟨first, written⟩
  · exact Semantics.within_nil

theorem compute_within (worker : core < compute_num) :
    Statement.Within
      (fun x => l.use x = .operand cluster_id (t % 2) ∨ l.use x = .weights cluster_id)
      (fun x => l.part cluster_id compute_num (t % 2) core x ∨
        ∃ r, x = register cluster_id compute_num core r)
      ((pipe l cluster_num compute_num before cluster_id).compute t core :
        List (Step BatchnormArray Unit F)) := by
  rw [fits.pipe_compute cluster here]
  exact channels_within fits.even worker (fits.item_place cluster here).2.2

/-- The same, by uses. -/
theorem compute_uses (worker : core < compute_num) :
    Statement.Within
      (fun x => l.use x = .operand cluster_id (t % 2) ∨ l.use x = .weights cluster_id)
      (fun x => l.use x = .result cluster_id (t % 2) ∨
        l.use x = .own (cluster_id * (compute_num + 1) + (core + 1)))
      ((pipe l cluster_num compute_num before cluster_id).compute t core :
        List (Step BatchnormArray Unit F)) := by
  refine (compute_within fits cluster here worker).mono (fun _ => .inl) ?_
  rintro x (mine | ⟨r, rfl⟩)
  · exact .inl (use_part fits.even worker mine)
  · exact .inr rfl

theorem store_within :
    Statement.Within (fun x => l.use x = .result cluster_id (t % 2)) (fun x => l.use x = .target)
      ((pipe l cluster_num compute_num before cluster_id).store t :
        List (Step BatchnormArray Unit F)) := by
  rw [fits.pipe_store cluster here]
  refine storeTile_within.mono (fun _ => .inl) ?_
  rintro x ⟨e, _, rfl⟩
  rfl

omit here

/-- **The stages that overlap keep out of each other's way.** -/
theorem pipe_apart : (pipe l cluster_num compute_num before cluster_id :
    Pipeline (Step BatchnormArray Unit F)).Apart Statement.semantics := by
  have at_item : ∀ {t}, t < (l.items cluster_num cluster_id).length →
      ∃ item, (l.items cluster_num cluster_id)[t]? = some item := fun inside =>
    ⟨_, List.getElem?_eq_getElem inside⟩
  have flip : ∀ t, t % 2 ≠ (t + 1) % 2 := by omega
  constructor
  · intro t inside
    obtain ⟨item, here⟩ := at_item (Nat.lt_of_succ_lt inside)
    obtain ⟨item', next⟩ := at_item inside
    refine .of_within (store_within fits cluster here) (load_within fits cluster next) ?_ ?_
    · intro x target
      simp [target]
    · rintro x (operand | ⟨zero, -⟩)
      · simp [operand]
      · cases zero
  · rintro ⟨⟩
  · intro t inside core worker
    obtain ⟨item, here⟩ := at_item (Nat.lt_of_succ_lt inside)
    obtain ⟨item', next⟩ := at_item inside
    refine .of_within (compute_uses fits cluster here worker) (load_within fits cluster next) ?_ ?_
    · rintro x (result | own)
      · simp [result]
      · simp [own]
    · rintro x (operand | ⟨zero, -⟩)
      · simp [operand, (flip t).symm]
      · cases zero
  · intro t inside core worker
    obtain ⟨item, here⟩ := at_item (Nat.lt_of_succ_lt inside)
    obtain ⟨item', next⟩ := at_item inside
    refine .of_within (compute_uses fits cluster next worker) (store_within fits cluster here) ?_ ?_
    · rintro x (result | own)
      · simp [result, (flip t).symm]
      · simp [own]
    · intro x target
      simp [target]
  · intro t inside core worker core' worker' other
    obtain ⟨item, here⟩ := at_item inside
    have apart : ∀ {core core' : Nat}, core < compute_num → core' < compute_num → core ≠ core' →
        ∀ x, (l.part cluster_id compute_num (t % 2) core x ∨
            ∃ r, x = register cluster_id compute_num core r) →
          ¬(l.use x = .operand cluster_id (t % 2) ∨ l.use x = .weights cluster_id) ∧
            ¬(l.part cluster_id compute_num (t % 2) core' x ∨
              ∃ r, x = register cluster_id compute_num core' r) := by
      rintro core core' worker worker' other x (mine | ⟨r, rfl⟩)
      · have use := use_part fits.even worker mine
        refine ⟨by simp [use], ?_⟩
        rintro (theirs | ⟨r, rfl⟩)
        · exact part_apart fits.even worker worker' other mine theirs
        · cases use
      · refine ⟨by simp [register, BatchnormLayer.use], ?_⟩
        rintro (theirs | ⟨r', same⟩)
        · cases use_part fits.even worker' theirs
        · injection same with agent
          omega
    exact .of_within (compute_within fits cluster here worker)
      (compute_within fits cluster here worker') (apart worker worker' other)
      (apart worker' worker other.symm)

end Footprints

/-! ## What an iteration leaves -/

section Values

variable {F : Type} [CommSemiring F]

/-- What belongs in an element of the output. -/
def BatchnormLayer.scaled (l : BatchnormLayer) (m : Mem → F) (e : Nat) : F :=
  m (.ext .gamma (e % l.CI)) * m (.ext .ifmap e) + m (.ext .beta (e % l.CI))

/-- A cluster's memory `m'` before iteration `t` of a run from `m`. -/
structure Ready (l : BatchnormLayer) (cluster_id t : Nat) (m m' : Mem → F) : Prop where
  source : ∀ x, l.use x = .source → m' x = m x
  weights : 0 < t → ∀ k < l.CI, m' (l.gamma cluster_id k) = m (.ext .gamma k) ∧
    m' (l.beta cluster_id k) = m (.ext .beta k)

/-- After the load. -/
structure Loaded (l : BatchnormLayer) (cluster_id t : Nat) (item : Nat × Nat) (m m' : Mem → F) :
    Prop where
  source : ∀ x, l.use x = .source → m' x = m x
  weights : ∀ k < l.CI, m' (l.gamma cluster_id k) = m (.ext .gamma k) ∧
    m' (l.beta cluster_id k) = m (.ext .beta k)
  tile : ∀ e < l.tile_size, m' (l.ifmap cluster_id (t % 2 * l.tile_size + e)) =
    m (.ext .ifmap (l.element item e))

variable {l : BatchnormLayer} {cluster_num compute_num cluster_id b e t core : Nat}
  {before : Nat → Regs} {item : Nat × Nat} {x : Mem} {m m' : Mem → F}

omit [CommSemiring F] in
theorem loadTile_value (inside : e < l.tile_size) :
    after Statement.run (loadTile l cluster_id b item) m
      (l.ifmap cluster_id (b * l.tile_size + e)) = m (.ext .ifmap (l.element item e)) := by
  refine (after_each (p := fun e => l.ifmap cluster_id (b * l.tile_size + e))
    (fun _ _ _ written => written) ?_ ?_ inside).trans (Function.update_self _ _ _)
  · intro r _ r' _ same
    injection same with _ _ same
    omega
  · rintro r _ r' _ _ (same | same | same) <;> cases same

omit [CommSemiring F] in
theorem storeTile_value (room : item.2 + l.TILE_CI ≤ l.CI) (inside : e < l.tile_size) :
    after Statement.run (storeTile l cluster_id b item) m (.ext .ofmap (l.element item e)) =
      m (l.ofmap cluster_id (b * l.tile_size + e)) := by
  refine (after_each (p := fun e => (.ext .ofmap (l.element item e) : Mem))
    (fun _ _ _ written => written) ?_ ?_ inside).trans (Function.update_self _ _ _)
  · intro r small r' small' same
    have some : 0 < l.TILE_CI := Nat.pos_of_mul_pos_left (Nat.zero_lt_of_lt small)
    have channel := Nat.mod_lt r some
    have channel' := Nat.mod_lt r' some
    injection same with _ same
    obtain ⟨rows, columns⟩ := grid_inj (by omega) (by omega) same
    rw [← Nat.div_add_mod' r l.TILE_CI, ← Nat.div_add_mod' r' l.TILE_CI,
      Nat.add_left_cancel rows, Nat.add_left_cancel columns]
  · rintro r _ r' _ _ (same | same | same) <;> cases same

omit [CommSemiring F] in
theorem loadWeights_value (inside : e < l.CI) :
    after Statement.run (loadWeights l cluster_id) m (l.gamma cluster_id e) = m (.ext .gamma e) ∧
      after Statement.run (loadWeights l cluster_id) m (l.beta cluster_id e) =
        m (.ext .beta e) := by
  have gamma_beta : ∀ k, l.gamma cluster_id e ≠ l.beta cluster_id k := by
    intro k same
    injection same with _ _ same
    rw [BatchnormLayer.weights_size] at same
    omega
  rw [loadWeights, after_append]
  constructor
  · rw [after_each_frame (fun _ _ _ written => written) fun k _ => gamma_beta k]
    refine (after_each (p := l.gamma cluster_id) (fun _ _ _ written => written) ?_ ?_
      inside).trans (Function.update_self _ _ _)
    · intro r _ r' _ same
      injection same with _ _ same
      omega
    · rintro r _ r' _ _ (same | same | same) <;> cases same
  · refine (after_each (p := l.beta cluster_id) (fun _ _ _ written => written) ?_ ?_
      inside).trans ((Function.update_self _ _ _).trans ?_)
    · intro r _ r' _ same
      injection same with _ _ same
      omega
    · rintro r _ r' _ _ (same | same | same) <;> cases same
    · exact after_each_frame (fun _ _ _ written => written) fun k _ same => by cases same

/-- The code for a channel, by core and multiple of the cores. -/
def channelCode (l : BatchnormLayer) (cluster_id compute_num b : Nat) (item p : Nat × Nat) :
    List (Step BatchnormArray Unit F) :=
  tileChannel l cluster_id compute_num b item p.1 p.2

variable (fits : Fits l cluster_num compute_num) (cluster : cluster_id < cluster_num)
  (here : (l.items cluster_num cluster_id)[t]? = some item)

include fits cluster here

variable (before) in
/-- **A load fills its buffer**, and the first the weights. -/
theorem Ready.load (ready : Ready l cluster_id t m m') :
    Loaded l cluster_id t item m (after Statement.run
      ((pipe l cluster_num compute_num before cluster_id).load t) m') := by
  have within : Statement.Within _ _ ((pipe l cluster_num compute_num before cluster_id).load t :
      List (Step BatchnormArray Unit F)) := load_within fits cluster here
  have kept : ∀ x, l.use x = .source → after Statement.run
      ((pipe l cluster_num compute_num before cluster_id).load t) m' x = m' x := fun x source =>
    within.frame (by simp [source])
  refine ⟨fun x source => (kept x source).trans (ready.source x source), fun k inside => ?_,
    fun e inside => ?_⟩
  · rw [fits.pipe_load cluster here, after_append]
    have tile : ∀ m' x, l.use x = .weights cluster_id → after Statement.run
        (loadTile l cluster_id (t % 2) item) m' x = (m' x : F) := fun m' x weights =>
      Statement.Within.frame (loadTile_within (l := l) (b := t)) (by simp [weights])
    rw [tile _ _ (use_gamma inside), tile _ _ (use_beta inside)]
    split
    · rw [(loadWeights_value inside).1, (loadWeights_value inside).2, ready.source _ rfl,
        ready.source _ rfl]
      exact ⟨rfl, rfl⟩
    · next later => exact ready.weights (Nat.pos_of_ne_zero later) k inside
  · rw [fits.pipe_load cluster here, after_append, loadTile_value inside, ← ready.source _ rfl]
    split
    · exact Statement.Within.frame loadWeights_within (by simp [BatchnormLayer.use])
    · rfl

theorem work_within :
    Statement.Within
      (fun x => l.use x = .operand cluster_id (t % 2) ∨ l.use x = .weights cluster_id)
      (fun x => l.use x = .result cluster_id (t % 2) ∨
        ∃ core, l.use x = .own (cluster_id * (compute_num + 1) + (core + 1)))
      ((pipe l cluster_num compute_num before cluster_id).work t :
        List (Step BatchnormArray Unit F)) := by
  refine Semantics.within_flatMap.mpr fun core worker => ?_
  exact (compute_uses fits cluster here worker).mono (fun _ => .inl) fun x written =>
    written.imp_right fun own => ⟨core, own⟩

/-- The channels of all cores as one list. -/
theorem work_eq : ((pipe l cluster_num compute_num before cluster_id).work t :
    List (Step BatchnormArray Unit F)) =
      (List.range compute_num ×ˢ dealtRows compute_num 0 l.TILE_CI).flatMap
        (channelCode l cluster_id compute_num (t % 2) item) := by
  change _ = ((List.range compute_num).flatMap fun core =>
    (dealtRows compute_num 0 l.TILE_CI).map (Prod.mk core)).flatMap _
  rw [List.flatMap_assoc]
  exact List.flatMap_congr fun core _ => (fits.pipe_compute cluster here).trans
    (List.flatMap_map (Prod.mk core) (channelCode l cluster_id compute_num (t % 2) item) _).symm

/-- **All channels of the tile in the TCDM are scaled.** -/
theorem Loaded.work (loaded : Loaded l cluster_id t item m m') (inside : e < l.tile_size) :
    after Statement.run ((pipe l cluster_num compute_num before cluster_id).work t) m'
      (l.ofmap cluster_id (t % 2 * l.tile_size + e)) = l.scaled m (l.element item e) := by
  have some := fits.some_tile
  have some_core := fits.some_core
  obtain ⟨-, -, room⟩ := fits.item_place cluster here
  -- the element's column, its core and its channel on the core
  obtain ⟨w, k, column, channel, rfl⟩ : ∃ w k, w < l.IW ∧ k < l.TILE_CI ∧ w * l.TILE_CI + k = e :=
    ⟨e / l.TILE_CI, e % l.TILE_CI, Nat.div_lt_of_lt_mul (Nat.mul_comm l.IW _ ▸ inside),
      Nat.mod_lt e some, Nat.div_add_mod' e l.TILE_CI⟩
  have worker := Nat.mod_lt k some_core
  have split : k / compute_num * compute_num + k % compute_num = k :=
    Nat.div_add_mod' k compute_num
  have first : k / compute_num * compute_num ∈ dealtRows compute_num 0 l.TILE_CI :=
    (mem_dealtRows some_core).mpr ⟨by omega, Nat.mul_mod_left _ _⟩
  have nodup : (List.range compute_num ×ˢ dealtRows compute_num 0 l.TILE_CI).Nodup :=
    List.nodup_range.product (nodup_dealtRows some_core)
  have member : (k % compute_num, k / compute_num * compute_num) ∈
      List.range compute_num ×ˢ dealtRows compute_num 0 l.TILE_CI :=
    List.mem_product.mpr ⟨List.mem_range.mpr worker, first⟩
  obtain ⟨m'', same, result⟩ := after_one (S := Statement.semantics)
    (f := channelCode (F := F) l cluster_id compute_num (t % 2) item) member nodup m'
  -- nobody writes an operand, and the output of a channel is its own
  have operand : ∀ x, l.use x = .operand cluster_id (t % 2) ∨ l.use x = .weights cluster_id →
      m'' x = m' x := by
    intro x use
    refine same x fun p other _ a inner written => ?_
    obtain ⟨worker', dealt⟩ := List.mem_product.mp other
    have part : a ∈ (pipe l cluster_num compute_num before cluster_id).compute t p.1 := by
      rw [fits.pipe_compute cluster here]
      exact List.mem_flatMap.mpr ⟨p.2, dealt, inner⟩
    have target := (compute_uses fits cluster here (List.mem_range.mp worker') a part).2 x written
    rcases use with use | use <;> simp [use] at target
  have target : OthersKeep Statement.semantics
      (List.range compute_num ×ˢ dealtRows compute_num 0 l.TILE_CI)
      (channelCode (F := F) l cluster_id compute_num (t % 2) item)
      (k % compute_num, k / compute_num * compute_num)
      (l.ofmap cluster_id (t % 2 * l.tile_size + (w * l.TILE_CI + k))) := by
    rintro ⟨core, ci⟩ other different a inner written
    obtain ⟨worker', dealt⟩ := List.mem_product.mp other
    obtain ⟨⟨q, rfl⟩, room'⟩ := (mem_columns some_core fits.even).mp dealt
    have worker' := List.mem_range.mp worker'
    rcases (channel_within a inner).2 _ written with own | own | ⟨w', _, here⟩
    · cases own
    · cases own
    · injection here with _ _ here
      have columns : w * l.TILE_CI + k = w' * l.TILE_CI + (compute_num * q + core) := by omega
      obtain ⟨-, rfl⟩ := grid_inj channel (by omega) columns
      refine different ?_
      rw [Nat.mul_comm, grid_mod worker', grid_div worker']
  have value := channel_value (m := m'') (n := l.IW) (register cluster_id compute_num
    (k % compute_num) 0) (register cluster_id compute_num (k % compute_num) 1)
    (l.gamma cluster_id (item.2 + k)) (l.beta cluster_id (item.2 + k))
    (fun w => l.ifmap cluster_id (t % 2 * l.tile_size + (w * l.TILE_CI + k)))
    (fun w => l.ofmap cluster_id (t % 2 * l.tile_size + (w * l.TILE_CI + k)))
    (by simp [register]) nofun ?_ (fun _ _ => ⟨nofun, nofun, nofun, nofun⟩) ?_ column
  · have place : (item.2 + k) % l.CI = item.2 + k := Nat.mod_eq_of_lt (by omega)
    have element : l.element item (w * l.TILE_CI + k) % l.CI = item.2 + k := by
      rw [BatchnormLayer.element, grid_mod channel, grid_mod (by omega)]
    rw [work_eq fits cluster here, BatchnormLayer.scaled, element]
    refine (result _ target).trans ?_
    rw [channelCode, tileChannel, split]
    refine value.trans ?_
    rw [operand _ (.inl (use_ifmap inside)), operand _ (.inr (use_gamma (by omega))),
      operand _ (.inr (use_beta (by omega))), loaded.tile _ inside,
      (loaded.weights _ (by omega)).1, (loaded.weights _ (by omega)).2, mul_comm]
  · intro w _ w' _ same
    injection same with _ _ same
    have columns : w * l.TILE_CI = w' * l.TILE_CI := by omega
    exact Nat.eq_of_mul_eq_mul_right some columns
  · intro w small w' small' same
    have read : l.use (l.ifmap cluster_id (t % 2 * l.tile_size + (w * l.TILE_CI + k))) = _ :=
      use_ifmap (grid_lt small channel)
    rw [same, use_ofmap (grid_lt small' channel)] at read
    cases read

variable (before) in
theorem Loaded.keep_work (loaded : Loaded l cluster_id t item m m') :
    Loaded l cluster_id t item m (after Statement.run
      ((pipe l cluster_num compute_num before cluster_id).work t) m') := by
  have kept : ∀ x, (l.use x = .source ∨ l.use x = .operand cluster_id (t % 2) ∨
      l.use x = .weights cluster_id) → after Statement.run
        ((pipe l cluster_num compute_num before cluster_id).work t) m' x = m' x := by
    intro x use
    refine Statement.Within.frame (work_within fits cluster here) ?_
    rcases use with use | use | use <;> simp [use]
  refine ⟨fun x source => (kept x (.inl source)).trans (loaded.source x source),
    fun k inside => ?_, fun e inside => ?_⟩
  · rw [kept _ (.inr (.inr (use_gamma inside))), kept _ (.inr (.inr (use_beta inside)))]
    exact loaded.weights k inside
  · rw [kept _ (.inr (.inl (use_ifmap inside)))]
    exact loaded.tile e inside

theorem Loaded.store (loaded : Loaded l cluster_id t item m m') :
    Ready l cluster_id (t + 1) m (after Statement.run
      ((pipe l cluster_num compute_num before cluster_id).store t) m') := by
  have kept : ∀ x, l.use x ≠ .target → after Statement.run
      ((pipe l cluster_num compute_num before cluster_id).store t) m' x = m' x := fun x other =>
    Statement.Within.frame (store_within fits cluster here) other
  refine ⟨fun x source => ?_, fun _ k inside => ?_⟩
  · rw [kept x (by simp [source]), loaded.source x source]
  · rw [kept _ (by simp [use_gamma inside]), kept _ (by simp [use_beta inside])]
    exact loaded.weights k inside

omit here

variable (before) in
/-- **The iterations leave the values of all tiles so far.** -/
theorem iterations_value (n : Nat) (inside : n ≤ (l.items cluster_num cluster_id).length)
    (m : Mem → F) :
    Ready l cluster_id n m (loop n (fun t => after Statement.run
        ((pipe l cluster_num compute_num before cluster_id).item t)) m) ∧
      ∀ t < n, ∀ item ∈ (l.items cluster_num cluster_id)[t]?, ∀ e < l.tile_size,
        loop n (fun t => after Statement.run
          ((pipe l cluster_num compute_num before cluster_id).item t)) m
            (.ext .ofmap (l.element item e)) = l.scaled m (l.element item e) := by
  refine loop_invariant (fun n (m' : Mem → F) => Ready l cluster_id n m m' ∧
    ∀ t < n, ∀ item ∈ (l.items cluster_num cluster_id)[t]?, ∀ e < l.tile_size,
      m' (.ext .ofmap (l.element item e)) = l.scaled m (l.element item e))
    ⟨⟨fun _ _ => rfl, fun zero => absurd zero (Nat.lt_irrefl 0)⟩, nofun⟩ ?_
  rintro n small m' ⟨ready, values⟩
  obtain ⟨item, here⟩ : ∃ item, (l.items cluster_num cluster_id)[n]? = some item :=
    ⟨_, List.getElem?_eq_getElem (Nat.lt_of_lt_of_le small inside)⟩
  have loaded := ready.load before fits cluster here
  have worked := loaded.keep_work before fits cluster here
  rw [Pipeline.item, after_append, after_append]
  refine ⟨worked.store fits cluster here, fun t before' item' here' e element => ?_⟩
  have written : ∀ e < l.tile_size, after Statement.run
      ((pipe l cluster_num compute_num before cluster_id).store n) (after Statement.run
        ((pipe l cluster_num compute_num before cluster_id).work n) (after Statement.run
          ((pipe l cluster_num compute_num before cluster_id).load n) m'))
            (.ext .ofmap (l.element item e)) = l.scaled m (l.element item e) := by
    intro e element
    rw [fits.pipe_store cluster here, storeTile_value (fits.item_place cluster here).2.2 element]
    exact loaded.work fits cluster here element
  by_cases again : ∃ e' < l.tile_size, l.element item' e = l.element item e'
  · obtain ⟨e', element', again⟩ := again
    rw [again]
    exact written e' element'
  · have old : t < n := by
      refine Nat.lt_of_le_of_ne (Nat.le_of_lt_succ before') ?_
      rintro rfl
      obtain rfl : item' = item := Option.some.inj (here'.symm.trans here)
      exact again ⟨e, element, rfl⟩
    rw [fits.pipe_store cluster here]
    refine (Statement.Within.frame (storeTile_within (b := n)) ?_).trans ?_
    · rintro ⟨e', element', same⟩
      exact again ⟨e', element', by injection same⟩
    · have kept : after Statement.run
          ((pipe l cluster_num compute_num before cluster_id).work n) (after Statement.run
            ((pipe l cluster_num compute_num before cluster_id).load n) m')
              (.ext .ofmap (l.element item' e)) = m' (.ext .ofmap (l.element item' e)) :=
        (Statement.Within.frame (work_within fits cluster here)
          (by simp [BatchnormLayer.use])).trans
            (Statement.Within.frame (load_within fits cluster here) (by simp [BatchnormLayer.use]))
      rw [kept]
      exact values t old item' here' e element

end Values

/-! ## Every run -/

section Runs

variable {F : Type} [CommSemiring F]

/-- Who may touch what is ever written. -/
def BatchnormLayer.owner (l : BatchnormLayer) (cluster_num compute_num : Nat) : Mem → Option Nat
  | .ext .ofmap e => some (e / l.CI / l.IW % cluster_num)
  | .ext _ _ => none
  | .loc _ cluster_id _ => some cluster_id
  | .own agent _ => some (agent / (compute_num + 1))

variable {l : BatchnormLayer} {cluster_num compute_num cluster_id b e t core : Nat}
  {before : Nat → Regs} {item : Nat × Nat} {x : Mem} {m m' : Mem → F}

variable (l cluster_num compute_num x) in
theorem owner_of_use : match l.use x with
    | .source => l.owner cluster_num compute_num x = none
    | .operand c _ | .weights c | .result c _ => l.owner cluster_num compute_num x = some c
    | .own agent => l.owner cluster_num compute_num x = some (agent / (compute_num + 1))
    | .target => True := by
  cases x with
  | ext array e => cases array <;> simp [BatchnormLayer.use, BatchnormLayer.owner]
  | loc array c e =>
    simp only [BatchnormLayer.use, BatchnormLayer.owner]
    split_ifs <;> rfl
  | own agent r => simp [BatchnormLayer.use, BatchnormLayer.owner]

theorem element_row (room : item.2 + l.TILE_CI ≤ l.CI) (inside : e < l.tile_size) :
    l.element item e / l.CI / l.IW = item.1 ∧ l.element item e % l.CI = item.2 + e % l.TILE_CI ∧
      e / l.TILE_CI < l.IW ∧ e % l.TILE_CI < l.TILE_CI := by
  have some : 0 < l.TILE_CI := Nat.pos_of_mul_pos_left (Nat.zero_lt_of_lt inside)
  have channel := Nat.mod_lt e some
  have column : e / l.TILE_CI < l.IW := Nat.div_lt_of_lt_mul (Nat.mul_comm l.IW _ ▸ inside)
  rw [BatchnormLayer.element, grid_div (by omega), grid_mod (by omega), grid_div column]
  exact ⟨rfl, rfl, column, channel⟩

/-- What a cluster does with an item touches, of what is ever written, its own only. -/
theorem item_owner (fits : Fits l cluster_num compute_num) (cluster : cluster_id < cluster_num)
    (here : (l.items cluster_num cluster_id)[t]? = some item) {a : Step BatchnormArray Unit F}
    (member : a ∈ (pipe l cluster_num compute_num before cluster_id).item t) :
    (∀ x, a.writes x → l.owner cluster_num compute_num x = some cluster_id) ∧
      ∀ x, a.reads x → ∀ c, l.owner cluster_num compute_num x = some c → c = cluster_id := by
  have mine : ∀ x, (∃ b, l.use x = .operand cluster_id b) ∨ l.use x = .weights cluster_id ∨
      (∃ b, l.use x = .result cluster_id b) ∨
      (∃ core < compute_num, l.use x = .own (cluster_id * (compute_num + 1) + (core + 1))) →
        l.owner cluster_num compute_num x = some cluster_id := by
    intro x use
    have owner := owner_of_use l cluster_num compute_num x
    rcases use with ⟨b, use⟩ | use | ⟨b, use⟩ | ⟨core, worker, use⟩
    · simpa [use] using owner
    · simpa [use] using owner
    · simpa [use] using owner
    · simpa [use, grid_div (Nat.succ_lt_succ worker)] using owner
  have source : ∀ x, l.use x = .source → l.owner cluster_num compute_num x = none := by
    intro x use
    have owner := owner_of_use l cluster_num compute_num x
    simpa [use] using owner
  have only : ∀ x, l.owner cluster_num compute_num x = some cluster_id →
      ∀ c, l.owner cluster_num compute_num x = some c → c = cluster_id := fun x owned c same =>
    Option.some.inj (same.symm.trans owned)
  rcases List.mem_append.mp member with front | stored
  · rcases List.mem_append.mp front with loaded | worked
    · obtain ⟨reads, writes⟩ := load_within fits cluster here a loaded
      have written : ∀ x, (l.use x = .operand cluster_id (t % 2) ∨
          t = 0 ∧ l.use x = .weights cluster_id) →
            l.owner cluster_num compute_num x = some cluster_id := fun x use =>
        mine x (use.elim (fun use => .inl ⟨_, use⟩) fun use => .inr (.inl use.2))
      refine ⟨fun x write => written x (writes x write), fun x read c owned => ?_⟩
      rcases reads x read with use | use
      · rw [source x use] at owned
        cases owned
      · exact only x (written x use) c owned
    · obtain ⟨core, worker, inner⟩ := List.mem_flatMap.mp worked
      have worker := List.mem_range.mp worker
      obtain ⟨reads, writes⟩ := compute_uses fits cluster here worker a inner
      have written : ∀ x, (l.use x = .result cluster_id (t % 2) ∨
          l.use x = .own (cluster_id * (compute_num + 1) + (core + 1))) →
            l.owner cluster_num compute_num x = some cluster_id := fun x use =>
        mine x (.inr (.inr (use.imp (fun use => ⟨_, use⟩) fun use => ⟨core, worker, use⟩)))
      refine ⟨fun x write => written x (writes x write), fun x read => ?_⟩
      rcases reads x read with (use | use) | use
      · exact only x (mine x (.inl ⟨_, use⟩))
      · exact only x (mine x (.inr (.inl use)))
      · exact only x (written x use)
  · rw [fits.pipe_store cluster here] at stored
    obtain ⟨row, dealt, room⟩ := fits.item_place cluster here
    obtain ⟨reads, writes⟩ := storeTile_within a stored
    have written : ∀ x, (∃ e < l.tile_size, x = .ext .ofmap (l.element item e)) →
        l.owner cluster_num compute_num x = some cluster_id := by
      rintro x ⟨e, inside, rfl⟩
      rw [BatchnormLayer.owner, (element_row room inside).1, dealt]
    refine ⟨fun x write => written x (writes x write), fun x read => ?_⟩
    rcases reads x read with use | use
    · exact only x (mine x (.inr (.inr (.inl ⟨_, use⟩))))
    · exact only x (written x use)

variable (before) in
/-- **The clusters are pipelines side by side.** -/
theorem piped (fits : Fits l cluster_num compute_num) :
    Piped Statement.semantics cluster_num compute_num ((l.items cluster_num 0).length + 2)
      (fun cluster_id => (loops l cluster_id compute_num :
        TiledLoop (Step BatchnormArray Unit F) _ _).agent (l.items cluster_num cluster_id)
          (regs cluster_id compute_num before))
      (pipe l cluster_num compute_num before) (l.owner cluster_num compute_num) where
  workers _ _ := rfl
  length _ _ := Nat.add_le_add_right items_length 2
  apart _ cluster := pipe_apart fits cluster
  phases _ cluster _ inside j := TiledLoop.agent_phase (fits.first cluster).2
    (fits.first cluster).1 compute_num inside j
  past _ cluster _ past j := TiledLoop.agent_phase_past (fits.first cluster).2
    (fits.first cluster).1 past j
  writes _ cluster _ inside _ member :=
    (item_owner fits cluster (List.getElem?_eq_getElem inside) member).1
  reads _ cluster _ inside _ member :=
    (item_owner fits cluster (List.getElem?_eq_getElem inside) member).2

/-! ### What is in the buffers -/

/-- What belongs in a buffer of a cluster between barriers `p` and `p + 1`: the tile before, the
weights, and the results of the tile before that. -/
def BatchnormLayer.Holds (l : BatchnormLayer) (cluster_num cluster_id p : Nat) (m : Mem → F)
    (x : Mem) (v : F) : Prop :=
  (∃ t, p = t + 1 ∧ ∃ item ∈ (l.items cluster_num cluster_id)[t]?, ∃ e < l.tile_size,
    x = l.ifmap cluster_id (t % 2 * l.tile_size + e) ∧ v = m (.ext .ifmap (l.element item e))) ∨
  (∃ k < l.CI, x = l.gamma cluster_id k ∧ v = m (.ext .gamma k) ∨
    x = l.beta cluster_id k ∧ v = m (.ext .beta k)) ∨
  ∃ t, p = t + 2 ∧ ∃ item ∈ (l.items cluster_num cluster_id)[t]?, ∃ e < l.tile_size,
    x = l.ofmap cluster_id (t % 2 * l.tile_size + e) ∧ v = l.scaled m (l.element item e)

variable (fits : Fits l cluster_num compute_num) (cluster : cluster_id < cluster_num)

include fits cluster

variable (before) in
/-- When an item is computed, its operands and its results are in their buffers. -/
theorem ahead_worked (here : (l.items cluster_num cluster_id)[t]? = some item) (m : Mem → F) :
    Loaded l cluster_id t item m ((pipe l cluster_num compute_num before cluster_id).ahead
        Statement.semantics m (t + 1)) ∧
      ∀ e < l.tile_size, (pipe l cluster_num compute_num before cluster_id).ahead
        Statement.semantics m (t + 1) (l.ofmap cluster_id (t % 2 * l.tile_size + e)) =
          l.scaled m (l.element item e) := by
  have inside : t < (pipe l cluster_num compute_num before cluster_id :
      Pipeline (Step BatchnormArray Unit F)).count := (List.getElem?_eq_some_iff.mp here).1
  have earlier : loop t (fun t => after Statement.semantics.run (Pipeline.upto
      (pipe l cluster_num compute_num before cluster_id).count
      (pipe l cluster_num compute_num before cluster_id).item t)) m =
        loop t (fun t => after Statement.run
          ((pipe l cluster_num compute_num before cluster_id).item t)) m :=
    loop_congr fun t' small _ => by
      rw [Pipeline.upto, if_pos (Nat.lt_trans small inside)]
      rfl
  have loaded := (iterations_value before fits cluster t inside.le m).1.load
    before fits cluster here
  rw [Pipeline.ahead, earlier, Pipeline.upto, if_pos inside, Pipeline.upto, if_pos inside]
  exact ⟨loaded.keep_work before fits cluster here,
    fun e element => loaded.work fits cluster here element⟩

variable (before) in
/-- What a compute core finds. -/
theorem operands_seen (here : (l.items cluster_num cluster_id)[t]? = some item) (m : Mem → F) :
    Loaded l cluster_id t item m ((pipe l cluster_num compute_num before
      cluster_id).program.reference Statement.semantics m (t + 1)) := by
  have inside : t < (pipe l cluster_num compute_num before cluster_id :
      Pipeline (Step BatchnormArray Unit F)).count := (List.getElem?_eq_some_iff.mp here).1
  have ready : Ready l cluster_id t m ((pipe l cluster_num compute_num before cluster_id).ahead
      Statement.semantics m t) := by
    cases t with
    | zero => exact ⟨fun _ _ => rfl, fun zero => absurd zero (Nat.lt_irrefl 0)⟩
    | succ t =>
      obtain ⟨item', previous⟩ : ∃ item', (l.items cluster_num cluster_id)[t]? = some item' :=
        ⟨_, List.getElem?_eq_getElem (Nat.lt_of_succ_lt inside)⟩
      have worked := (ahead_worked before fits cluster previous m).1
      exact ⟨worked.source, fun _ => worked.weights⟩
  rw [(pipe_apart fits cluster).reference_eq m t (by omega), Pipeline.upto, if_pos inside]
  exact ready.load before fits cluster here

variable (before) in
/-- What the data mover finds. -/
theorem results_seen (here : (l.items cluster_num cluster_id)[t]? = some item) (m : Mem → F)
    (inside : e < l.tile_size) :
    (pipe l cluster_num compute_num before cluster_id).program.reference Statement.semantics m
      (t + 2) (l.ofmap cluster_id (t % 2 * l.tile_size + e)) = l.scaled m (l.element item e) := by
  have before_end : t < (pipe l cluster_num compute_num before cluster_id :
      Pipeline (Step BatchnormArray Unit F)).count := (List.getElem?_eq_some_iff.mp here).1
  rw [(pipe_apart fits cluster).reference_eq m (t + 1) (by omega),
    ← (ahead_worked before fits cluster here m).2 e inside, Pipeline.upto]
  split
  · next later =>
      refine Statement.Within.frame (load_within fits cluster (List.getElem?_eq_getElem later)) ?_
      simp [use_ofmap inside]
  · rfl

omit fits cluster

/-- What is read of a channel. -/
theorem channel_reads {g b scale shift : Mem} {u v : Nat → Mem} {n : Nat}
    {a : Step BatchnormArray Unit F} (member : a ∈ channel g b scale shift u v n)
    (read : a.reads x) :
    (x = scale ∨ x = shift ∨ ∃ w < n, x = u w) ∨ x = g ∨ x = b := by
  rcases List.mem_append.mp member with loads | member
  · rcases List.mem_cons.mp loads with rfl | loads
    · rcases read with rfl | rfl | rfl <;> exact .inl (.inl rfl)
    · obtain rfl := List.mem_singleton.mp loads
      rcases read with rfl | rfl | rfl <;> exact .inl (.inr (.inl rfl))
  · obtain ⟨w, inside, rfl⟩ := List.mem_map.mp member
    rcases read with rfl | rfl | rfl
    · exact .inl (.inr (.inr ⟨w, List.mem_range.mp inside, rfl⟩))
    · exact .inr (.inl rfl)
    · exact .inr (.inr rfl)

include fits cluster

/-- Of the TCDM, the mover reads the results. -/
theorem mover_seen {p n c : Nat} {a : Step BatchnormArray Unit F}
    (active : p < (l.items cluster_num cluster_id).length + 2)
    (member : a ∈ (pipe l cluster_num compute_num before cluster_id).mover p)
    (read : a.reads (tcdm c e)) (m : Mem → F) :
    l.Holds cluster_num cluster_id p m (tcdm c e) (after Statement.semantics.run
      (((pipe l cluster_num compute_num before cluster_id).mover p).take n)
        ((pipe l cluster_num compute_num before cluster_id).program.reference Statement.semantics m
          p) (tcdm c e)) := by
  have at_item : ∀ {t}, t < (l.items cluster_num cluster_id).length →
      ∃ item, (l.items cluster_num cluster_id)[t]? = some item := fun inside =>
    ⟨_, List.getElem?_eq_getElem inside⟩
  -- what is loaded comes from outside
  have load : ∀ t < (l.items cluster_num cluster_id).length,
      ∀ b ∈ (pipe l cluster_num compute_num before cluster_id).load t,
        ¬(b : Step BatchnormArray Unit F).reads (tcdm c e) := by
    intro t inside b member read
    obtain ⟨item, here⟩ := at_item inside
    rw [fits.pipe_load cluster here] at member
    have transfers : ∃ x y array, b = transfer x (.ext array y) := by
      rcases List.mem_append.mp member with member | member
      · split at member
        · rcases List.mem_append.mp member with member | member
          · obtain ⟨k, -, rfl⟩ := List.mem_map.mp member
            exact ⟨_, _, _, rfl⟩
          · obtain ⟨k, -, rfl⟩ := List.mem_map.mp member
            exact ⟨_, _, _, rfl⟩
        · cases member
      · obtain ⟨k, -, rfl⟩ := List.mem_map.mp member
        exact ⟨_, _, _, rfl⟩
    obtain ⟨x, y, array, rfl⟩ := transfers
    rcases read with read | read | read <;> cases read
  have parts : ∀ b ∈ (pipe l cluster_num compute_num before cluster_id).mover p,
      (∃ t, p = t + 2 ∧ (b : Step BatchnormArray Unit F) ∈
        (pipe l cluster_num compute_num before cluster_id).store t) ∨
      p < (l.items cluster_num cluster_id).length ∧
        b ∈ (pipe l cluster_num compute_num before cluster_id).load p := by
    intro b inner
    rcases List.mem_append.mp (show b ∈ (if 1 < p then _ else []) ++ _ from inner) with
      inner | inner
    · split at inner
      · exact .inl ⟨p - 2, by omega, inner⟩
      · cases inner
    · split at inner
      · next inside => exact .inr ⟨inside, inner⟩
      · cases inner
  rcases parts a member with ⟨t, rfl, stored⟩ | ⟨inside, loaded⟩
  · obtain ⟨item, here⟩ := at_item (show t < (l.items cluster_num cluster_id).length by omega)
    rw [fits.pipe_store cluster here] at stored
    obtain ⟨k, element, rfl⟩ := List.mem_map.mp stored
    have element := List.mem_range.mp element
    have same : tcdm c e = l.ofmap cluster_id (t % 2 * l.tile_size + k) := by
      rcases read with read | read | read <;> exact read
    refine .inr (.inr ⟨t, rfl, item, here, k, element, same, ?_⟩)
    rw [same, ← results_seen before fits cluster here m element]
    refine after_frame fun b inner written => ?_
    rcases parts b (List.mem_of_mem_take inner) with ⟨t', later, again⟩ | ⟨inside, loaded⟩
    · obtain rfl : t = t' := by omega
      have target := (store_within fits cluster here b again).2 _ written
      simp [use_ofmap element] at target
    · have target := (load_within fits cluster (List.getElem?_eq_getElem inside) b loaded).2 _
        written
      simp [use_ofmap element] at target
  · exact absurd read (load p inside a loaded)

/-- A compute core reads the operands. -/
theorem worker_seen {p n c : Nat} {a : Step BatchnormArray Unit F} (worker : core < compute_num)
    (member : a ∈ (pipe l cluster_num compute_num before cluster_id).worker p core)
    (read : a.reads (tcdm c e)) (m : Mem → F) :
    l.Holds cluster_num cluster_id p m (tcdm c e) (after Statement.semantics.run
      (((pipe l cluster_num compute_num before cluster_id).worker p core).take n)
        ((pipe l cluster_num compute_num before cluster_id).program.reference Statement.semantics m
          p) (tcdm c e)) := by
  unfold Pipeline.worker at member ⊢
  split at member
  · next inside =>
      obtain ⟨t, rfl⟩ : ∃ t, p = t + 1 := ⟨p - 1, by omega⟩
      rw [if_pos inside]
      obtain ⟨item, here⟩ : ∃ item, (l.items cluster_num cluster_id)[t]? = some item :=
        ⟨_, List.getElem?_eq_getElem (Nat.lt_of_succ_lt_succ inside.2)⟩
      have member : a ∈ (pipe l cluster_num compute_num before cluster_id).compute t core := member
      have kept : ∀ x, l.use x = .operand cluster_id (t % 2) ∨ l.use x = .weights cluster_id →
          after Statement.semantics.run (((pipe l cluster_num compute_num before
            cluster_id).compute t core).take n) ((pipe l cluster_num compute_num before
              cluster_id).program.reference Statement.semantics m (t + 1)) x =
          (pipe l cluster_num compute_num before cluster_id).program.reference Statement.semantics m
            (t + 1) x := by
        intro x use
        refine after_frame fun b inner written => ?_
        have target := (compute_uses fits cluster here worker b (List.mem_of_mem_take inner)).2 _
          written
        rcases use with use | use <;> simp [use] at target
      have loaded := operands_seen before fits cluster here m
      rw [fits.pipe_compute cluster here] at member
      obtain ⟨ci, dealt, inner⟩ := List.mem_flatMap.mp member
      obtain ⟨-, room⟩ := (mem_columns fits.some_core fits.even).mp dealt
      obtain ⟨-, -, channels⟩ := fits.item_place cluster here
      rcases channel_reads inner read with (same | same | ⟨w, column, same⟩) | own
      · have small : item.2 + (ci + core) < l.CI := by omega
        refine .inr (.inl ⟨_, small, .inl ⟨same, ?_⟩⟩)
        rw [same, Nat.add_sub_cancel, kept _ (.inr (use_gamma small)), (loaded.weights _ small).1]
      · have small : item.2 + (ci + core) < l.CI := by omega
        refine .inr (.inl ⟨_, small, .inr ⟨same, ?_⟩⟩)
        rw [same, Nat.add_sub_cancel, kept _ (.inr (use_beta small)), (loaded.weights _ small).2]
      · have element : w * l.TILE_CI + (ci + core) < l.tile_size := grid_lt column (by omega)
        refine .inl ⟨t, rfl, item, here, _, element, same, ?_⟩
        rw [same, Nat.add_sub_cancel, kept _ (.inl (use_ifmap element)), loaded.tile _ element]
      · rcases own with same | same <;> cases same
  · cases member

omit fits cluster

/-- **Whoever reads a buffer finds what belongs there.** -/
theorem buffer_seen (fits : Fits l cluster_num compute_num) {s : State Mem F} {i c e p : Nat}
    {a : Step BatchnormArray Unit F}
    (reached : ((batchnorm_layer l cluster_num compute_num before).machine
      Statement.semantics).Reachable (Program.start m) s)
    (agent : i < cluster_num * (compute_num + 1))
    (phase : (batchnorm_layer l cluster_num compute_num before :
      Program Nat (Step BatchnormArray Unit F)).schedule[(s.place i).1]? = some p)
    (action : ((batchnorm_layer l cluster_num compute_num before).code p i)[(s.place i).2]? =
      some a)
    (read : a.reads (tcdm c e)) :
    c = i / (compute_num + 1) ∧
      l.Holds cluster_num (i / (compute_num + 1)) p m (tcdm c e) (s.memory (tcdm c e)) := by
  obtain ⟨cluster, inside⟩ := agent_team agent
  obtain ⟨active, member, t, small, part⟩ :=
    (piped before fits).mem_item agent (List.mem_of_getElem? action)
  refine ⟨(item_owner fits cluster (List.getElem?_eq_getElem small) part).2 _ read c rfl, ?_⟩
  rw [(piped before fits).sees reached agent phase action read]
  cases j : i % (compute_num + 1) with
  | zero =>
    rw [j] at member
    exact mover_seen fits cluster active member read m
  | succ core =>
    rw [j] at member inside
    exact worker_seen fits cluster (Nat.lt_of_succ_lt_succ inside) member read m

/-! ### The layer -/

/-- An element of a map. -/
def BatchnormLayer.mapElement (l : BatchnormLayer) (h w c : Nat) : Nat := (h * l.IW + w) * l.CI + c

/-- Whatever the registers hold before: every run ends, when all cores have returned every output is
the scaled and shifted input, no core writes other external memory, and whoever reads a buffer
finds in it what belongs there. -/
structure Covers (F : Type) [CommSemiring F] (l : BatchnormLayer) (cluster_num compute_num : Nat) :
    Prop where
  completes : ∀ before, (batchnorm_layer l cluster_num compute_num before :
    Program Nat (Step BatchnormArray Unit F)).Completes Statement.semantics
  outputs : ∀ before (m : Mem → F) s, ((batchnorm_layer l cluster_num compute_num before).machine
      Statement.semantics).Reachable (Program.start m) s →
    (∀ i < cluster_num * (compute_num + 1),
      (l.items cluster_num 0).length + 2 ≤ (s.place i).1) →
    ∀ h < l.IH, ∀ w < l.IW, ∀ c < l.CI, s.memory (.ext .ofmap (l.mapElement h w c)) =
      m (.ext .gamma c) * m (.ext .ifmap (l.mapElement h w c)) + m (.ext .beta c)
  confined : ∀ before, ∀ p ∈ (batchnorm_layer l cluster_num compute_num before :
      Program Nat (Step BatchnormArray Unit F)).schedule,
    ∀ i < cluster_num * (compute_num + 1),
      ∀ a ∈ (batchnorm_layer l cluster_num compute_num before).code p i, ∀ array e,
        (a : Step BatchnormArray Unit F).writes (.ext array e) →
          array = .ofmap ∧ ∃ h < l.IH, ∃ w < l.IW, ∃ c < l.CI, e = l.mapElement h w c
  buffers : ∀ before (m : Mem → F) s, ((batchnorm_layer l cluster_num compute_num before).machine
      Statement.semantics).Reachable (Program.start m) s →
    ∀ i < cluster_num * (compute_num + 1),
      ∀ p ∈ (batchnorm_layer l cluster_num compute_num before :
        Program Nat (Step BatchnormArray Unit F)).schedule[(s.place i).1]?,
      ∀ a ∈ ((batchnorm_layer l cluster_num compute_num before).code p i)[(s.place i).2]?, ∀ c e,
        (a : Step BatchnormArray Unit F).reads (tcdm c e) → c = i / (compute_num + 1) ∧
          l.Holds cluster_num (i / (compute_num + 1)) p m (tcdm c e) (s.memory (tcdm c e))

/-- Every element of the map is one of some tile of its row's cluster. -/
theorem element_of (fits : Fits l cluster_num compute_num) (some_cluster : 0 < cluster_num)
    {h w c : Nat} (row : h < l.IH) (column : w < l.IW) (channel : c < l.CI) :
    ∃ t : Nat, ∃ item ∈ (l.items cluster_num (h % cluster_num))[t]?, ∃ e < l.tile_size,
      l.element item e = l.mapElement h w c := by
  have some := fits.some_tile
  have rest := Nat.mod_lt c some
  have split : c / l.TILE_CI * l.TILE_CI + c % l.TILE_CI = c := Nat.div_add_mod' c l.TILE_CI
  have room : c / l.TILE_CI * l.TILE_CI + l.TILE_CI ≤ l.CI := by
    rw [← Nat.succ_mul, ← Nat.div_mul_cancel fits.whole]
    exact Nat.mul_le_mul_right _ (Nat.div_lt_div_of_lt_of_dvd fits.whole channel)
  have member := (mem_items (Nat.mod_lt h some_cluster) some fits.whole).mpr
    ⟨⟨row, rfl⟩, Nat.dvd_mul_left l.TILE_CI (c / l.TILE_CI), room⟩
  obtain ⟨t, here⟩ := List.mem_iff_getElem?.mp member
  refine ⟨t, _, here, w * l.TILE_CI + c % l.TILE_CI, grid_lt column rest, ?_⟩
  rw [BatchnormLayer.element, grid_div rest, grid_mod rest, split, BatchnormLayer.mapElement]

/-- **A row for every cluster is enough.** -/
theorem covers_of_fits (fits : Fits l cluster_num compute_num) (some_cluster : 0 < cluster_num) :
    Covers F l cluster_num compute_num where
  completes _ := Program.completes _ _
  outputs := by
    intro before m s reached ended h row w column c channel
    obtain ⟨t, item, here, e, inside, element⟩ := element_of fits some_cluster row column channel
    have cluster := Nat.mod_lt h some_cluster
    obtain ⟨-, dealt, room⟩ := fits.item_place cluster here
    have value := (iterations_value before fits cluster _ le_rfl m).2 t
      (List.getElem?_eq_some_iff.mp here).1 item here e inside
    have owner : ∀ c', l.owner cluster_num compute_num (.ext .ofmap (l.mapElement h w c)) =
        some c' → c' = h % cluster_num := by
      intro c' owned
      have first := (element_row room inside).1
      rw [BatchnormLayer.owner, ← element, first, dealt] at owned
      exact (Option.some.inj owned).symm
    have channel' : l.mapElement h w c % l.CI = c := grid_mod channel
    rw [element] at value
    rw [BatchnormLayer.scaled, channel'] at value
    exact ((piped before fits).memory_team reached ended cluster owner).trans value
  confined := by
    intro before p planned i agent a member array e written
    obtain ⟨cluster, -⟩ := agent_team agent
    obtain ⟨-, -, t, small, part⟩ := (piped before fits).mem_item agent member
    obtain ⟨item, here⟩ : ∃ item, (l.items cluster_num (i / (compute_num + 1)))[t]? = some item :=
      ⟨_, List.getElem?_eq_getElem small⟩
    obtain ⟨row, -, room⟩ := fits.item_place cluster here
    rcases List.mem_append.mp part with front | stored
    · exfalso
      rcases List.mem_append.mp front with loaded | worked
      · have use := (load_within fits cluster here a loaded).2 _ written
        cases array <;> simp [BatchnormLayer.use] at use
      · have use := (work_within fits cluster here a worked).2 _ written
        cases array <;> simp [BatchnormLayer.use] at use
    · rw [fits.pipe_store cluster here] at stored
      obtain ⟨k, inside, same⟩ := (storeTile_within a stored).2 _ written
      obtain ⟨-, -, column, channel⟩ := element_row room inside
      injection same with array same
      exact ⟨array, item.1, row, k / l.TILE_CI, column, item.2 + k % l.TILE_CI, by omega, same⟩
  buffers _ _ _ reached _ agent _ phase _ action _ _ read :=
    buffer_seen fits reached agent phase action read

omit [CommSemiring F] in
variable (cluster_id) in
/-- What is stored, whatever the layout. -/
theorem store_writes (columns : 0 < l.IW) (some : 0 < l.TILE_CI) (r : Regs) :
    ∃ a ∈ store l cluster_id r, (a : Step BatchnormArray Unit F).writes
      (.ext .ofmap (r.prev_oh * l.IW * l.CI + if l.TILE_CI = l.CI then 0 else r.prev_ci)) := by
  unfold store
  split
  · next all =>
      refine ⟨_, List.mem_map.mpr ⟨0, List.mem_range.mpr ?_, rfl⟩, rfl⟩
      exact Nat.mul_pos columns (all ▸ some)
  · refine ⟨_, List.mem_flatMap.mpr ⟨0, List.mem_range.mpr columns,
      List.mem_map.mpr ⟨0, List.mem_range.mpr some, rfl⟩⟩, ?_⟩
    simp [transfer, Statement.assign]

variable (cluster_id) in
/-- **A cluster without an iteration stores elsewhere**: here, behind the map. -/
theorem idle_stores (columns : 0 < l.IW) (some : 0 < l.TILE_CI) (cluster : cluster_id < cluster_num)
    (idle : l.items cluster_num cluster_id = []) : ¬Covers F l cluster_num compute_num := by
  intro covers
  -- the uninitialised variables happen to name the row behind the last
  obtain ⟨before, found⟩ : ∃ before : Nat → Regs, before = fun _ => ⟨false, false, l.IH, 0, []⟩ :=
    ⟨_, rfl⟩
  have regs_eq : regs cluster_id compute_num before 0 = ⟨false, false, l.IH, 0, []⟩ := by
    rw [found]
    rfl
  obtain ⟨a, member, written⟩ := store_writes (F := F) cluster_id columns some
    (regs cluster_id compute_num before 0)
  have agent : cluster_id * (compute_num + 1) + 0 < cluster_num * (compute_num + 1) :=
    grid_lt cluster (Nat.succ_pos compute_num)
  have code : (batchnorm_layer l cluster_num compute_num before :
      Program Nat (Step BatchnormArray Unit F)).code 1 (cluster_id * (compute_num + 1) + 0) =
        store l cluster_id (regs cluster_id compute_num before 0) := by
    simp only [batchnorm_layer, teams, grid_div (Nat.succ_pos compute_num),
      grid_mod (Nat.succ_pos compute_num), idle, TiledLoop.agent_idle, and_self, if_true]
    rfl
  obtain ⟨-, h, row, w, column, c, channel, here⟩ := covers.confined before 1
    (List.mem_range.mpr (by omega)) _ agent a (code ▸ member) _ _ written
  have inside : l.mapElement h w c < l.IH * l.IW * l.CI :=
    grid_lt (grid_lt row column) channel
  rw [regs_eq] at here
  dsimp only at here
  split at here <;> omega

/-- Without channels nothing is touched. -/
theorem nothing_to_do (none : l.TILE_CI = 0) (empty : l.CI = 0) (p i : Nat) :
    (batchnorm_layer l cluster_num compute_num before :
      Program Nat (Step BatchnormArray Unit F)).code p i = [] := by
  have items : ∀ cluster_id, l.items cluster_num cluster_id = [] := fun cluster_id => by
    simp [BatchnormLayer.items, none, empty, dealtRows]
  have stored : ∀ cluster_id r,
      (store l cluster_id r : List (Step BatchnormArray Unit F)) = [] := fun cluster_id r => by
    simp [store, none, empty, snrt_dma_start_1d]
  simp only [batchnorm_layer, teams, items, TiledLoop.agent_idle]
  split
  · exact stored _ _
  · rfl

theorem covers_nothing (none : l.TILE_CI = 0) (empty : l.CI = 0) :
    Covers F l cluster_num compute_num where
  completes _ := Program.completes _ _
  outputs := by
    intro before m s _ _ h _ w _ c channel
    rw [empty] at channel
    exact absurd channel (Nat.not_lt_zero c)
  confined := by
    intro before p _ i _ a member
    rw [nothing_to_do none empty] at member
    cases member
  buffers := by
    intro before m s _ i _ p _ a action
    rw [nothing_to_do none empty] at action
    cases action

/-- **The layer is right exactly when every cluster has a row**, or nothing is to be done. -/
theorem batchnorm_layer_covers_iff (l : BatchnormLayer) (cluster_num compute_num : Nat)
    (some_cluster : 0 < cluster_num) (columns : 0 < l.IW) (whole : l.TILE_CI ∣ l.CI)
    (even : compute_num ∣ l.TILE_CI) (few_columns : l.IW ≤ 2 ^ 32)
    (few_channels : l.TILE_CI ≤ 2 ^ 32) :
    Covers F l cluster_num compute_num ↔
      l.TILE_CI = 0 ∨ 0 < l.CI ∧ cluster_num ≤ l.IH := by
  constructor
  · intro covers
    by_contra wrong
    simp only [not_or, not_and, Nat.not_le] at wrong
    obtain ⟨tile, idle⟩ := wrong
    have some : 0 < l.TILE_CI := Nat.pos_of_ne_zero tile
    rcases Nat.eq_zero_or_pos l.CI with none | channels
    · refine idle_stores 0 columns some some_cluster ?_ covers
      simp [BatchnormLayer.items, dealtRows, none]
    · refine idle_stores l.IH columns some (idle channels) ?_ covers
      have small := Nat.div_eq_of_lt (idle channels)
      simp [BatchnormLayer.items, dealtRows, small, Nat.mod_eq_of_lt (idle channels)]
  · rintro (none | ⟨channels, enough⟩)
    · exact covers_nothing none (Nat.eq_zero_of_zero_dvd (none ▸ whole))
    · exact covers_of_fits ⟨channels, columns, enough, whole, even, few_columns, few_channels⟩
        some_cluster

/-- Two clusters, three rows of five columns and four channels in two tiles. -/
theorem batchnorm_layer_covers_rows : Covers ℤ ⟨4, 3, 5, 2⟩ 2 2 ↔
    (⟨4, 3, 5, 2⟩ : BatchnormLayer).TILE_CI = 0 ∨ 0 < (⟨4, 3, 5, 2⟩ : BatchnormLayer).CI ∧
      2 ≤ (⟨4, 3, 5, 2⟩ : BatchnormLayer).IH :=
  batchnorm_layer_covers_iff ⟨4, 3, 5, 2⟩ 2 2 (by decide) (by decide) (by decide) (by decide)
    (by decide) (by decide)

/-- Two clusters and one row. -/
theorem second_cluster_stores : ¬Covers ℤ ⟨1, 1, 1, 1⟩ 2 1 :=
  idle_stores 1 (by decide) (by decide) (by decide) rfl

end Runs

end SnitchCluster.Kernels.Batchnorm
