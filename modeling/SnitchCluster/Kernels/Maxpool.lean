/-
# Kernels.Maxpool -- tiled max-pooling

`maxpool_layer` deals out the output pixels to the clusters and goes through a pixel in tiles of
`tile_ci` channels.  The data mover loads the window of a tile while the compute cores pool the
tile before, and stores the tile before that; both keep their own buffer indices.

Between barriers these loops are a pipeline (`dm_phase`, `compute_phase`), on one cluster with work
to do and channels that the compute cores divide evenly.  Then every run leaves the maxima of the
windows and nothing else (`maxpool_layer_pools`).  A second cluster uses `snrt_global_core_idx` as
its channel, and a cluster without tiles stores one nevertheless (`idle_cluster_stores`).
-/
import Mathlib.Data.List.GetD
import Mathlib.Order.Bounds.Basic
import SnitchCluster.Kernels.BlasVariants

namespace SnitchCluster.Kernels.Maxpool

open Blas Theory Theory.Loops Theory.Supersteps

/-! ## The code -/

section Code

inductive MaxpoolArray
  | ifmap
  | ofmap
  deriving DecidableEq

/-- The arrays in external memory, and the TCDM of a cluster from `snrt_l1_next()` on. -/
abbrev Mem := Word MaxpoolArray Unit

/-- An element of the TCDM of a cluster. -/
def l1 (cluster_id e : Nat) : Mem := .loc () cluster_id e

/-- `maxpool_layer_t`, as far as the layer depends on it. -/
structure MaxpoolLayer where
  CI : Nat
  IW : Nat
  OH : Nat
  OW : Nat
  FH : Nat
  FW : Nat
  tile_ci : Nat

namespace MaxpoolLayer

variable (l : MaxpoolLayer)

def ifmap_size : Nat := 2 * l.FH * l.FW * l.tile_ci

def ofmap_size : Nat := 2 * l.tile_ci

/-- The iterations of a cluster: the output pixels dealt to it, in tiles of channels. -/
def items (cluster_num cluster_id : Nat) : List (Nat × Nat) :=
  (dealtRows cluster_num cluster_id (l.OH * l.OW)).flatMap fun tile =>
    (dealtRows l.tile_ci 0 l.CI).map fun ci => (tile, ci)

end MaxpoolLayer

variable {F : Type} [LinearOrder F]

/-- A new maximum. -/
def maxStep (max x : Mem) : Step MaxpoolArray Unit F :=
  .assign max x max max fun v max _ => if max < v then v else max

def maxpool_fp64 (max : Mem) (ifmap ofmap : Nat → Mem) (CI FH FW compute_num : Nat) :
    List (Step MaxpoolArray Unit F) :=
  (dealtRows compute_num 0 CI).flatMap fun ci =>
    transfer max (ifmap ci) ::
      ((List.range FH).flatMap fun fh => (List.range FW).map fun fw =>
        maxStep max (ifmap ((fh * FW + fw) * CI + ci))) ++
      [transfer (ofmap ci) max]

/-- What a core keeps from iteration to iteration; compute cores have no `prev`. -/
structure Regs where
  read_buf : Bool
  write_buf : Bool
  prev_oh : Nat
  prev_ow : Nat
  prev_ci : Nat

/-- Before the first iteration, with what `prev` happens to hold. -/
def Regs.start (prev : Nat × Nat × Nat) : Regs := ⟨false, false, prev.1, prev.2.1, prev.2.2⟩

/-- At the end of an iteration. -/
def Regs.next (l : MaxpoolLayer) (r : Regs) (item : Nat × Nat) : Regs where
  read_buf := !r.read_buf
  write_buf := !r.write_buf
  prev_oh := item.1 / l.OW
  prev_ow := item.1 % l.OW
  prev_ci := item.2

/-- DMA in. -/
def load (l : MaxpoolLayer) (cluster_id : Nat) (r : Regs) (item : Nat × Nat) :
    List (Step MaxpoolArray Unit F) :=
  let oh := item.1 / l.OW
  let ow := item.1 % l.OW
  let ci := item.2
  (List.range l.FH).flatMap fun fh =>
    let dst := fun e =>
      l1 cluster_id (r.write_buf.toNat * (l.ifmap_size / 2) + fh * l.FW * l.tile_ci + e)
    let src := fun e => .ext .ifmap (((oh * l.FH + fh) * l.IW + ow * l.FW) * l.CI + e)
    if l.tile_ci = l.CI then snrt_dma_start_1d dst src (l.tile_ci * l.FW)
    else snrt_dma_start_2d dst (fun e => src (ci + e)) l.tile_ci l.tile_ci l.CI l.FW

/-- DMA out, of the previous tile. -/
def store (l : MaxpoolLayer) (cluster_id : Nat) (r : Regs) : List (Step MaxpoolArray Unit F) :=
  snrt_dma_start_2d
    (fun e => .ext .ofmap ((r.prev_oh * l.OW + r.prev_ow) * l.CI + r.prev_ci + e))
    (fun e => l1 cluster_id (l.ifmap_size + (!r.read_buf).toNat * (l.ofmap_size / 2) + e))
    l.tile_ci l.CI l.tile_ci 1

/-- The pooling of a core. -/
def pool (l : MaxpoolLayer) (cluster_id compute_num core : Nat) (r : Regs) :
    List (Step MaxpoolArray Unit F) :=
  -- `snrt_global_core_idx`, data movers included
  let compute_id := cluster_id * (compute_num + 1) + core
  maxpool_fp64 (.own compute_id 0)
    (fun e => l1 cluster_id (r.read_buf.toNat * l.ifmap_size / 2 + compute_id + e))
    (fun e => l1 cluster_id (l.ifmap_size + r.write_buf.toNat * l.ofmap_size / 2 + compute_id + e))
    l.tile_ci l.FH l.FW compute_num

/-- A statement or a barrier of the cluster. -/
inductive Instr (F : Type)
  | act (s : Step MaxpoolArray Unit F)
  | barrier

/-- What stands between barrier `p` and the next. -/
def phaseCode : List (Instr F) → Nat → List (Step MaxpoolArray Unit F)
  | [], _ => []
  | .barrier :: _, 0 => []
  | .barrier :: is, p + 1 => phaseCode is p
  | .act s :: is, 0 => s :: phaseCode is 0
  | .act _ :: is, p + 1 => phaseCode is (p + 1)

/-- The data mover, from an iteration on. -/
def dm_core (l : MaxpoolLayer) (cluster_id : Nat) : List (Nat × Nat) → Regs → List (Instr F)
  | [], r => .barrier :: (store l cluster_id r).map .act
  | item :: items, r =>
    (load l cluster_id r item).map .act ++ .barrier ::
      ((if ¬(item.1 = cluster_id ∧ item.2 = 0) then store l cluster_id r else []).map .act ++
        dm_core l cluster_id items (r.next l item))

/-- A compute core, from an iteration on. -/
def compute_core (l : MaxpoolLayer) (cluster_id compute_num core : Nat) :
    List (Nat × Nat) → Regs → List (Instr F)
  | [], _ => [.barrier]
  | item :: items, r =>
    .barrier :: ((pool l cluster_id compute_num core r).map .act ++
      compute_core l cluster_id compute_num core items (r.next l item))

/-- The code of a cluster's agents: 0 is the data mover, `core + 1` a compute core. -/
def agentCode (l : MaxpoolLayer) (cluster_num compute_num : Nat) (prev : Nat × Nat × Nat)
    (cluster_id : Nat) : Nat → List (Instr F)
  | 0 => dm_core l cluster_id (l.items cluster_num cluster_id) (.start prev)
  | core + 1 => compute_core l cluster_id compute_num core (l.items cluster_num cluster_id)
      (.start prev)

/-- All cores; barriers are those of a cluster.  No cluster has more iterations than the first. -/
def maxpool_layer (l : MaxpoolLayer) (cluster_num compute_num : Nat)
    (prev : Nat → Nat × Nat × Nat) : Program Nat (Step MaxpoolArray Unit F) where
  agents := cluster_num * (compute_num + 1)
  schedule := List.range ((l.items cluster_num 0).length + 2)
  code p i :=
    let cluster_id := i / (compute_num + 1)
    phaseCode (agentCode l cluster_num compute_num (prev cluster_id) cluster_id
      (i % (compute_num + 1))) p
  waits _ i j := i / (compute_num + 1) == j / (compute_num + 1)

end Code

/-! ## Between barriers -/

section Phases

variable {F : Type} [LinearOrder F] {l : MaxpoolLayer} {as : List (Step MaxpoolArray Unit F)}
  {is : List (Instr F)} {items : List (Nat × Nat)}

omit [LinearOrder F] in
@[simp] theorem phaseCode_act_zero : phaseCode (as.map .act ++ is) 0 = as ++ phaseCode is 0 := by
  induction as with
  | nil => rfl
  | cons a as ih => exact congrArg (a :: ·) ih

omit [LinearOrder F] in
@[simp] theorem phaseCode_act_succ (p : Nat) :
    phaseCode (as.map .act ++ is) (p + 1) = phaseCode is (p + 1) := by
  induction as with
  | nil => rfl
  | cons a as ih => exact ih

omit [LinearOrder F] in
@[simp] theorem phaseCode_nil (p : Nat) : phaseCode ([] : List (Instr F)) p = [] := by
  cases p <;> rfl

omit [LinearOrder F] in
@[simp] theorem phaseCode_act (p : Nat) :
    phaseCode (as.map (.act : _ → Instr F)) p = if p = 0 then as else [] := by
  have all := List.append_nil (as.map (.act : _ → Instr F))
  cases p with
  | zero => rw [← all, phaseCode_act_zero, phaseCode_nil, List.append_nil, if_pos rfl]
  | succ p => rw [← all, phaseCode_act_succ, phaseCode_nil, if_neg (Nat.succ_ne_zero p)]

/-- The registers before iteration `t`. -/
def regsAt (l : MaxpoolLayer) (items : List (Nat × Nat)) (prev : Nat × Nat × Nat) : Nat → Regs
  | 0 => .start prev
  | t + 1 => (regsAt l items prev t).next l (items.getD t (0, 0))

variable {prev : Nat × Nat × Nat} {cluster_id compute_num core t : Nat}

/-- **Both indices name the buffers in turn.** -/
theorem regsAt_buf (t : Nat) : (regsAt l items prev t).read_buf.toNat = t % 2 ∧
    (regsAt l items prev t).write_buf.toNat = t % 2 := by
  induction t with
  | zero => exact ⟨rfl, rfl⟩
  | succ t ih =>
    simp only [regsAt, Regs.next]
    constructor
    · cases read : (regsAt l items prev t).read_buf <;> simp [read] at ih ⊢ <;> omega
    · cases write : (regsAt l items prev t).write_buf <;> simp [write] at ih ⊢ <;> omega

/-- What iteration `t` loads. -/
def loadAt (l : MaxpoolLayer) (cluster_id : Nat) (items : List (Nat × Nat))
    (prev : Nat × Nat × Nat) (t : Nat) : List (Step MaxpoolArray Unit F) :=
  if t < items.length then load l cluster_id (regsAt l items prev t) (items.getD t (0, 0)) else []

/-- What is stored between barriers `t` and `t + 1`: the tile of iteration `t - 1`. -/
def storeAt (l : MaxpoolLayer) (cluster_id : Nat) (items : List (Nat × Nat))
    (prev : Nat × Nat × Nat) (t : Nat) : List (Step MaxpoolArray Unit F) :=
  if t = 0 ∨ items.length < t then [] else store l cluster_id (regsAt l items prev t)

omit [LinearOrder F] in
/-- The code of the data mover before the next barrier, from iteration `t` on. -/
theorem dm_phase_zero (t : Nat) :
    phaseCode (dm_core l cluster_id (items.drop t) (regsAt l items prev t)) 0 =
      (loadAt l cluster_id items prev t : List (Step MaxpoolArray Unit F)) := by
  unfold loadAt
  split
  · next inside =>
      rw [List.drop_eq_getElem_cons inside, List.getD_eq_getElem _ _ inside, dm_core,
        phaseCode_act_zero, phaseCode, List.append_nil]
  · next outside =>
      rw [List.drop_eq_nil_of_le (Nat.le_of_not_lt outside), dm_core, phaseCode]

omit [LinearOrder F] in
/-- **The data mover between barriers**: it stores the tile before last and loads the next. -/
theorem dm_phase_succ (first : ∀ t (inside : t < items.length),
      items[t].1 = cluster_id ∧ items[t].2 = 0 ↔ t = 0) (some : items ≠ []) (p : Nat) :
    ∀ t ≤ items.length,
      phaseCode (dm_core l cluster_id (items.drop t) (regsAt l items prev t)) (p + 1) =
        (storeAt l cluster_id items prev (t + p) ++ loadAt l cluster_id items prev (t + p + 1) :
          List (Step MaxpoolArray Unit F)) := by
  induction p with
  | zero =>
    intro t le
    unfold storeAt
    by_cases inside : t < items.length
    · have next : phaseCode (dm_core l cluster_id (items.drop (t + 1))
          (regsAt l items prev (t + 1))) 0 =
            (loadAt l cluster_id items prev (t + 1) : List (Step MaxpoolArray Unit F)) :=
        dm_phase_zero _
      rw [regsAt, List.getD_eq_getElem _ _ inside] at next
      rw [List.drop_eq_getElem_cons inside, dm_core, phaseCode_act_succ, phaseCode,
        phaseCode_act_zero, next]
      simp only [first t inside, ite_not, Nat.add_zero, Nat.not_lt_of_lt inside, or_false]
    · obtain rfl : t = items.length := by omega
      have some : items.length ≠ 0 := fun none => some (List.length_eq_zero_iff.mp none)
      rw [List.drop_length, dm_core, phaseCode, phaseCode_act, if_pos rfl]
      simp [loadAt, some]
  | succ p ih =>
    intro t le
    by_cases inside : t < items.length
    · have next := ih (t + 1) inside
      rw [regsAt, List.getD_eq_getElem _ _ inside] at next
      rw [List.drop_eq_getElem_cons inside, dm_core, phaseCode_act_succ, phaseCode,
        phaseCode_act_succ, next, Nat.add_right_comm t 1 p, Nat.add_assoc t p 1]
    · obtain rfl : t = items.length := by omega
      rw [List.drop_length, dm_core, phaseCode, phaseCode_act, if_neg (Nat.succ_ne_zero p)]
      simp [storeAt, loadAt]
      omega

/-- **A compute core between barriers** works on the tile of the iteration. -/
theorem compute_phase (p : Nat) : ∀ t ≤ items.length,
    phaseCode (compute_core l cluster_id compute_num core (items.drop t)
        (regsAt l items prev t)) p =
      (match p with
        | 0 => []
        | p + 1 => if t + p < items.length then
            pool l cluster_id compute_num core (regsAt l items prev (t + p)) else [] :
        List (Step MaxpoolArray Unit F)) := by
  induction p with
  | zero =>
    intro t _
    cases items.drop t <;> rfl
  | succ p ih =>
    intro t le
    by_cases inside : t < items.length
    · have next := ih (t + 1) inside
      rw [regsAt, List.getD_eq_getElem _ _ inside] at next
      rw [List.drop_eq_getElem_cons inside, compute_core, phaseCode]
      cases p with
      | zero => simp [phaseCode_act_zero, next, inside]
      | succ p =>
        rw [phaseCode_act_succ, next]
        simp only [Nat.add_right_comm t 1 p, Nat.add_assoc t p 1]
    · obtain rfl : t = items.length := by omega
      rw [List.drop_length, compute_core, phaseCode, phaseCode_nil]
      simp

end Phases

/-! ## One cluster -/

section Pipeline

variable {F : Type} [LinearOrder F]

/-- What one cluster does, by iterations. -/
def pipeline (l : MaxpoolLayer) (compute_num : Nat) (prev : Nat × Nat × Nat) :
    Pipeline (Step MaxpoolArray Unit F) where
  count := (l.items 1 0).length
  workers := compute_num
  load t := load l 0 (regsAt l (l.items 1 0) prev t) ((l.items 1 0).getD t (0, 0))
  compute t core := pool l 0 compute_num core (regsAt l (l.items 1 0) prev t)
  store t := store l 0 (regsAt l (l.items 1 0) prev (t + 1))
  storeFirst := true

variable {l : MaxpoolLayer} {compute_num : Nat} {prev : Nat → Nat × Nat × Nat}

theorem mem_items {tile ci : Nat} (some : 0 < l.tile_ci) (whole : l.tile_ci ∣ l.CI) :
    (tile, ci) ∈ l.items 1 0 ↔ tile < l.OH * l.OW ∧ l.tile_ci ∣ ci ∧ ci + l.tile_ci ≤ l.CI := by
  simp only [MaxpoolLayer.items, List.mem_flatMap, List.mem_map, Prod.mk.injEq, dealtRows_one,
    List.mem_range]
  constructor
  · rintro ⟨_, small, _, dealt, rfl, rfl⟩
    exact ⟨small, (mem_columns some whole).mp dealt⟩
  · rintro ⟨small, channels⟩
    exact ⟨tile, small, ci, (mem_columns some whole).mpr channels, rfl, rfl⟩

/-- There is a first tile and it is the only one at channel 0 of pixel 0. -/
theorem items_first (pixels : 0 < l.OH * l.OW) (channels : 0 < l.CI) (whole : l.tile_ci ∣ l.CI) :
    l.items 1 0 ≠ [] ∧ ∀ t (inside : t < (l.items 1 0).length),
      (l.items 1 0)[t].1 = 0 ∧ (l.items 1 0)[t].2 = 0 ↔ t = 0 := by
  have some : 0 < l.tile_ci := Nat.pos_of_dvd_of_pos whole channels
  have tiles : dealtRows l.tile_ci 0 l.CI = 0 :: ((List.range (l.CI / l.tile_ci - 1)).map
      fun q => (q + 1) * l.tile_ci) := by
    have count := Nat.div_pos (Nat.le_of_dvd channels whole) some
    obtain ⟨n, count⟩ : ∃ n, l.CI / l.tile_ci = n + 1 := ⟨_, (Nat.sub_add_cancel count).symm⟩
    rw [dealtRows_whole whole, count, List.range_succ_eq_map]
    simp
  obtain ⟨rest, list⟩ : ∃ rest, l.items 1 0 = (0, 0) :: rest := by
    obtain ⟨n, pixels⟩ : ∃ n, l.OH * l.OW = n + 1 := ⟨_, (Nat.sub_add_cancel pixels).symm⟩
    rw [MaxpoolLayer.items, dealtRows_one, pixels, List.range_succ_eq_map, tiles]
    exact ⟨_, rfl⟩
  have nodup : (l.items 1 0).Nodup := by
    have pairs : l.items 1 0 = dealtRows 1 0 (l.OH * l.OW) ×ˢ dealtRows l.tile_ci 0 l.CI := rfl
    rw [pairs]
    exact (nodup_dealtRows (by decide)).product (nodup_dealtRows some)
  rw [list] at nodup ⊢
  refine ⟨List.cons_ne_nil _ _, fun t inside => ⟨fun here => ?_, ?_⟩⟩
  · cases t with
    | zero => rfl
    | succ t =>
      have inside : t < rest.length := Nat.lt_of_succ_lt_succ inside
      have again : rest[t] = (0, 0) := Prod.ext here.1 here.2
      exact absurd (again ▸ List.getElem_mem inside) (List.nodup_cons.mp nodup).1
  · rintro rfl
    exact ⟨rfl, rfl⟩

/-- **The loops of one cluster are a pipeline** when there is something to do. -/
theorem maxpool_layer_step (pixels : 0 < l.OH * l.OW) (channels : 0 < l.CI)
    (whole : l.tile_ci ∣ l.CI) (S : Semantics (Step MaxpoolArray Unit F) Mem F) :
    (maxpool_layer l 1 compute_num prev).step S =
      (pipeline l compute_num (prev 0)).program.step S := by
  obtain ⟨some, first⟩ := items_first pixels channels whole
  have agents : ∀ {i}, i < (maxpool_layer l 1 compute_num prev : Program Nat (Step _ _ F)).agents →
      i < compute_num + 1 := fun agent => Nat.lt_of_lt_of_eq agent (Nat.one_mul _)
  refine Program.step_congr (Nat.one_mul _) rfl (fun p planned i agent => ?_)
    fun p i agent j other => ?_
  · have small : p < (l.items 1 0).length + 2 := List.mem_range.mp planned
    simp only [maxpool_layer, Nat.div_eq_of_lt (agents agent), Nat.mod_eq_of_lt (agents agent)]
    cases i with
    | zero =>
      change phaseCode (dm_core l 0 ((l.items 1 0).drop 0)
        (regsAt l (l.items 1 0) (prev 0) 0)) p = (pipeline l compute_num (prev 0)).mover p
      cases p with
      | zero =>
        rw [dm_phase_zero, Pipeline.mover, if_neg (Nat.not_lt_zero 1)]
        rfl
      | succ p =>
        rw [dm_phase_succ first some p 0 (Nat.zero_le _), Nat.zero_add]
        refine congrArg (· ++ _) ?_
        cases p with
        | zero => rfl
        | succ p =>
          rw [storeAt, if_neg (by omega), if_pos (by omega)]
          rfl
    | succ core =>
      change phaseCode (compute_core l 0 compute_num core ((l.items 1 0).drop 0)
        (regsAt l (l.items 1 0) (prev 0) 0)) p = (pipeline l compute_num (prev 0)).worker p core
      rw [compute_phase p 0 (Nat.zero_le _), Pipeline.worker]
      cases p with
      | zero => rfl
      | succ p =>
        simp only [Nat.zero_add, Nat.zero_lt_succ, true_and, Nat.succ_lt_succ_iff]
        rfl
  · simp [maxpool_layer, Nat.div_eq_of_lt (agents agent), Nat.div_eq_of_lt (agents other),
      Pipeline.program]

end Pipeline

/-! ## The maximum of a window -/

section Window

variable {F : Type} [LinearOrder F] {max out : Mem} {u : Nat → Mem} {m : Mem → F} {n : Nat}

/-- What a core does with a channel. -/
def poolChannel (max : Mem) (n : Nat) (u : Nat → Mem) (out : Mem) :
    List (Step MaxpoolArray Unit F) :=
  transfer max (u 0) :: (List.range n).map (fun k => maxStep max (u k)) ++ [transfer out max]

theorem maxpool_fp64_eq {ifmap ofmap : Nat → Mem} {CI FH FW compute_num : Nat} :
    (maxpool_fp64 max ifmap ofmap CI FH FW compute_num : List (Step MaxpoolArray Unit F)) =
      (dealtRows compute_num 0 CI).flatMap fun ci =>
        poolChannel max (FH * FW) (fun k => ifmap (k * CI + ci)) (ofmap ci) := by
  refine List.flatMap_congr fun ci _ => ?_
  rw [poolChannel, List.map_eq_flatMap, flatMap_grid, Nat.zero_mul, Nat.zero_add]
  simp only [List.map_eq_flatMap]

/-- The maximum grows with the window. -/
theorem after_maxSteps (apart : ∀ k < n, u k ≠ max) :
    IsGreatest {v | v = m max ∨ ∃ k < n, v = m (u k)}
        (after Statement.run ((List.range n).map fun k => maxStep max (u k)) m max) ∧
      ∀ x, x ≠ max →
        after Statement.run ((List.range n).map fun k => maxStep max (u k)) m x = m x := by
  induction n with
  | zero => exact ⟨⟨.inl rfl, by rintro v (rfl | ⟨k, none, -⟩) <;> simp at *⟩, fun x _ => rfl⟩
  | succ n ih =>
    obtain ⟨greatest, frame⟩ := ih fun k small => apart k (Nat.lt_succ_of_lt small)
    rw [List.range_succ, List.map_append, List.map_singleton]
    refine ⟨?_, fun x other => ?_⟩
    · rw [after_append]
      generalize after Statement.run ((List.range n).map fun k => maxStep max (u k)) m = m' at *
      have value : after Statement.run [(maxStep max (u n) : Step MaxpoolArray Unit F)] m' max =
          if m' max < m (u n) then m (u n) else m' max := by
        rw [← frame (u n) (apart n (Nat.lt_succ_self n))]
        exact Function.update_self max _ m'
      have all : {v | v = m max ∨ ∃ k < n + 1, v = m (u k)} =
          insert (m (u n)) {v | v = m max ∨ ∃ k < n, v = m (u k)} := by
        ext v
        simp only [Set.mem_ofPred_eq, Set.mem_insert_iff, Nat.lt_succ_iff_lt_or_eq, or_and_right,
          exists_or, exists_eq_left]
        rw [← or_assoc, or_comm]
      rw [value, all, ← max_def_lt, max_comm]
      exact greatest.insert _
    · rw [after_append]
      exact (Function.update_of_ne other _ _).trans (frame x other)

/-- **A channel of a window becomes its maximum.** -/
theorem poolChannel_value (some : 0 < n) (apart : ∀ k, u k ≠ max) :
    IsGreatest {v | ∃ k < n, v = m (u k)}
      (after Statement.run (poolChannel max n u out) m out) := by
  obtain ⟨greatest, frame⟩ := after_maxSteps (n := n) (u := u)
    (m := (transfer max (u 0) : Step MaxpoolArray Unit F).run m) fun k _ => apart k
  have kept : ∀ k, (transfer max (u 0) : Step MaxpoolArray Unit F).run m (u k) = m (u k) :=
    fun k => Function.update_of_ne (apart k) _ _
  have first : (transfer max (u 0) : Step MaxpoolArray Unit F).run m max = m (u 0) :=
    Function.update_self _ _ _
  have window : {v | v = m (u 0) ∨ ∃ k < n, v = m (u k)} = {v | ∃ k < n, v = m (u k)} := by
    ext v
    exact ⟨fun here => here.elim (fun here => ⟨0, some, here⟩) id, .inr⟩
  simp only [first, kept, window] at greatest
  have last : ∀ m : Mem → F,
      after Statement.run [(transfer out max : Step MaxpoolArray Unit F)] m out = m max :=
    fun m => Function.update_self _ _ _
  rw [poolChannel, List.cons_append, after_cons, after_append, last]
  exact greatest

theorem poolChannel_within (some : 0 < n) :
    Statement.Within (fun x => ∃ k < n, x = u k) (fun x => x = out ∨ x = max)
      (poolChannel max n u out : List (Step MaxpoolArray Unit F)) := by
  have value : ∀ {R W : Mem → Prop} {x y : Mem}, R y ∨ W y → W x →
      (∀ z, (transfer x y : Step MaxpoolArray Unit F).reads z → R z ∨ W z) ∧
        ∀ z, (transfer x y : Step MaxpoolArray Unit F).writes z → W z := by
    intro R W x y read write
    exact ⟨by rintro z (rfl | rfl | rfl) <;> exact read, by rintro z rfl; exact write⟩
  refine Semantics.within_append.mpr ⟨Semantics.within_cons.mpr ⟨value (.inl ⟨0, some, rfl⟩)
    (.inr rfl), Semantics.within_map.mpr fun k inside => ⟨?_, fun x written => .inr written⟩⟩,
    Semantics.within_cons.mpr ⟨value (.inr (.inr rfl)) (.inl rfl), Semantics.within_nil⟩⟩
  rintro x (rfl | rfl | rfl)
  · exact .inl ⟨k, inside, rfl⟩
  · exact .inr (.inr rfl)
  · exact .inr (.inr rfl)

end Window

/-! ## The stages by elements -/

section Stages

variable {F : Type} [LinearOrder F] {l : MaxpoolLayer}

namespace MaxpoolLayer

variable (l : MaxpoolLayer)

/-- The elements of a window. -/
def window_size : Nat := l.FH * l.FW * l.tile_ci

/-- An element of the window of an output. -/
def source (tile channel k : Nat) : Mem :=
  .ext .ifmap (((tile / l.OW * l.FH + k / l.FW) * l.IW + (tile % l.OW * l.FW + k % l.FW)) * l.CI +
    channel)

end MaxpoolLayer

theorem half_ifmap : l.ifmap_size = 2 * l.window_size ∧ l.ifmap_size / 2 = l.window_size := by
  have double : l.ifmap_size = 2 * l.window_size := by
    unfold MaxpoolLayer.ifmap_size MaxpoolLayer.window_size
    ring
  exact ⟨double, by rw [double, Nat.mul_div_cancel_left _ (by decide)]⟩

omit [LinearOrder F] in
/-- **Both ways to load copy the window**, element by element. -/
theorem load_eq {cluster_id : Nat} {r : Regs} {item : Nat × Nat} {b : Nat}
    (buf : r.write_buf.toNat = b) (room : item.2 + l.tile_ci ≤ l.CI) :
    (load l cluster_id r item : List (Step MaxpoolArray Unit F)) =
      (List.range l.window_size).map fun e => transfer (l1 cluster_id (b * l.window_size + e))
        (l.source item.1 (item.2 + e % l.tile_ci) (e / l.tile_ci)) := by
  obtain ⟨tile, ci⟩ := item
  have source : ∀ fh fw c, fw < l.FW → c < l.tile_ci →
      l.source tile (ci + ((fh * l.FW + fw) * l.tile_ci + c) % l.tile_ci)
          (((fh * l.FW + fw) * l.tile_ci + c) / l.tile_ci) =
        .ext .ifmap (((tile / l.OW * l.FH + fh) * l.IW + tile % l.OW * l.FW) * l.CI +
          (ci + (fw * l.CI + c))) := by
    intro fh fw c column channel
    rw [grid_div channel, grid_mod channel, MaxpoolLayer.source, grid_div column, grid_mod column]
    congr 1
    ring
  rw [MaxpoolLayer.window_size, range_grid, flatMap_grid, load, buf, half_ifmap.2]
  refine List.flatMap_congr fun fh _ => ?_
  simp only
  split
  · next all =>
      obtain rfl : ci = 0 := by
        simp only at room
        omega
      rw [snrt_dma_start_1d, Nat.mul_comm l.tile_ci, range_grid]
      refine List.flatMap_congr fun fw column => List.map_congr_left fun c channel => ?_
      rw [source fh fw c (List.mem_range.mp column) (List.mem_range.mp channel), ← all,
        MaxpoolLayer.window_size]
      exact congrArg₂ _ (congrArg (l1 cluster_id) (by ring))
        (congrArg (Word.ext MaxpoolArray.ifmap) (by ring))
  · rw [snrt_dma_start_2d]
    refine List.flatMap_congr fun fw column => List.map_congr_left fun c channel => ?_
    rw [source fh fw c (List.mem_range.mp column) (List.mem_range.mp channel),
      MaxpoolLayer.window_size]
    exact congrArg₂ _ (congrArg (l1 cluster_id) (by ring)) rfl

omit [LinearOrder F] in
theorem store_eq {cluster_id : Nat} {r : Regs} {tile ci b : Nat} (buf : (!r.read_buf).toNat = b)
    (oh : r.prev_oh = tile / l.OW) (ow : r.prev_ow = tile % l.OW) (channel : r.prev_ci = ci) :
    (store l cluster_id r : List (Step MaxpoolArray Unit F)) =
      (List.range l.tile_ci).map fun c => transfer (.ext .ofmap (tile * l.CI + (ci + c)))
        (l1 cluster_id (2 * l.window_size + b * l.tile_ci + c)) := by
  have half : l.ofmap_size / 2 = l.tile_ci := Nat.mul_div_cancel_left _ (by decide)
  simp only [store, snrt_dma_start_2d, snrt_dma_start_1d, List.range_one, List.flatMap_singleton,
    Nat.zero_mul, Nat.zero_add, buf, oh, ow, channel, half, half_ifmap.1, Nat.div_add_mod',
    Nat.add_assoc]

theorem pool_eq {compute_num core : Nat} {r : Regs} {b : Nat} (read : r.read_buf.toNat = b)
    (write : r.write_buf.toNat = b) :
    (pool l 0 compute_num core r : List (Step MaxpoolArray Unit F)) =
      (dealtRows compute_num 0 l.tile_ci).flatMap fun ci =>
        poolChannel (.own core 0) (l.FH * l.FW)
          (fun k => l1 0 (b * l.window_size + (k * l.tile_ci + (ci + core))))
          (l1 0 (2 * l.window_size + b * l.tile_ci + (ci + core))) := by
  have first : b * l.ifmap_size / 2 = b * l.window_size := by
    rw [half_ifmap.1, Nat.mul_left_comm, Nat.mul_div_cancel_left _ (by decide)]
  have second : b * l.ofmap_size / 2 = b * l.tile_ci := by
    rw [MaxpoolLayer.ofmap_size, Nat.mul_left_comm, Nat.mul_div_cancel_left _ (by decide)]
  simp only [pool, maxpool_fp64_eq, read, write, first, second, Nat.zero_mul, Nat.zero_add]
  refine List.flatMap_congr fun ci _ => ?_
  congr 1
  · funext k
    exact congrArg _ (by ring)
  · exact congrArg _ (by rw [half_ifmap.1]; ring)

variable {compute_num : Nat} {prev : Nat × Nat × Nat}

/-- Iteration `t` of one cluster. -/
def MaxpoolLayer.item (l : MaxpoolLayer) (t : Nat) : Nat × Nat := (l.items 1 0).getD t (0, 0)

/-- An output of iteration `t`. -/
def MaxpoolLayer.output (l : MaxpoolLayer) (t c : Nat) : Nat :=
  (l.item t).1 * l.CI + ((l.item t).2 + c)

theorem item_mem {t : Nat} (inside : t < (l.items 1 0).length) : l.item t ∈ l.items 1 0 := by
  rw [MaxpoolLayer.item, List.getD_eq_getElem _ _ inside]
  exact List.getElem_mem inside

theorem pipeline_load {t : Nat} (some : 0 < l.tile_ci) (whole : l.tile_ci ∣ l.CI)
    (inside : t < (l.items 1 0).length) :
    ((pipeline l compute_num prev).load t : List (Step MaxpoolArray Unit F)) =
      (List.range l.window_size).map fun e => transfer (l1 0 (t % 2 * l.window_size + e))
        (l.source (l.item t).1 ((l.item t).2 + e % l.tile_ci) (e / l.tile_ci)) :=
  load_eq (regsAt_buf t).2 ((mem_items some whole).mp (item_mem inside)).2.2

theorem pipeline_store (t : Nat) :
    ((pipeline l compute_num prev).store t : List (Step MaxpoolArray Unit F)) =
      (List.range l.tile_ci).map fun c => transfer (.ext .ofmap (l.output t c))
        (l1 0 (2 * l.window_size + t % 2 * l.tile_ci + c)) := by
  refine store_eq ?_ rfl rfl rfl
  have buf : (regsAt l (l.items 1 0) prev t).read_buf.toNat = t % 2 := (regsAt_buf t).1
  rw [← buf]
  simp only [regsAt, Regs.next, Bool.not_not]

theorem pipeline_compute (t core : Nat) :
    ((pipeline l compute_num prev).compute t core : List (Step MaxpoolArray Unit F)) =
      (dealtRows compute_num 0 l.tile_ci).flatMap fun ci =>
        poolChannel (.own core 0) (l.FH * l.FW)
          (fun k => l1 0 (t % 2 * l.window_size + (k * l.tile_ci + (ci + core))))
          (l1 0 (2 * l.window_size + t % 2 * l.tile_ci + (ci + core))) :=
  pool_eq (regsAt_buf t).1 (regsAt_buf t).2

end Stages

/-! ## Every run -/

section Runs

variable {F : Type} [LinearOrder F] {l : MaxpoolLayer} {compute_num : Nat}
  {prev : Nat × Nat × Nat}

/-- The half of the input buffer with index `b`. -/
def MaxpoolLayer.operand (l : MaxpoolLayer) (b : Nat) (x : Mem) : Prop :=
  ∃ e < l.window_size, x = l1 0 (b % 2 * l.window_size + e)

/-- The half of the output buffer with index `b`. -/
def MaxpoolLayer.result (l : MaxpoolLayer) (b : Nat) (x : Mem) : Prop :=
  ∃ c < l.tile_ci, x = l1 0 (2 * l.window_size + b % 2 * l.tile_ci + c)

theorem l1_inj {i j : Nat} (same : l1 0 i = l1 0 j) : i = j := by
  injection same

/-- The two halves of a buffer. -/
theorem halves {b b' size e e' : Nat} (inside : e < size) (inside' : e' < size)
    (same : b % 2 * size + e = b' % 2 * size + e') : b % 2 = b' % 2 :=
  (grid_inj inside inside' same).1

theorem half_lt {b size e : Nat} (inside : e < size) : b % 2 * size + e < 2 * size :=
  grid_lt (Nat.mod_lt b (by decide)) inside

theorem transfers (some : 0 < l.tile_ci) (whole : l.tile_ci ∣ l.CI) :
    Transfers (pipeline l compute_num prev : Pipeline (Step MaxpoolArray Unit F)) l.operand l.result
      (fun _ x => ∃ e, x = .ext .ifmap e)
      (fun t x => ∃ c < l.tile_ci, x = .ext .ofmap (l.output t c))
      l.operand := by
  have split : ∀ b b' e e', e < l.window_size →
      b % 2 * l.window_size + e ≠ 2 * l.window_size + b' % 2 * l.tile_ci + e' := by
    intro b b' e e' inside same
    have below := half_lt (b := b) inside
    omega
  constructor
  · intro t inside
    rw [pipeline_load some whole inside]
    refine Semantics.within_map.mpr fun e inside => ⟨?_, fun x written => ?_⟩
    · rintro x (rfl | rfl | rfl) <;> exact .inl ⟨_, rfl⟩
    · exact ⟨e, inside, written⟩
  · intro t inside
    rw [pipeline_store]
    refine Semantics.within_map.mpr fun c inside => ⟨?_, fun x written => ⟨c, inside, written⟩⟩
    rintro x (rfl | rfl | rfl) <;>
      exact .inl ⟨c, inside, by rw [Nat.mod_mod]⟩
  · rintro t x ⟨e, rfl⟩
    exact trivial
  · rintro t x ⟨c, _, rfl⟩
    exact trivial
  · rintro t x ⟨e, _, rfl⟩
    exact trivial
  · rintro b x ⟨e, _, rfl⟩
    exact trivial
  · rintro b x ⟨c, _, rfl⟩
    exact trivial
  · rintro b b' x ⟨e, inside, rfl⟩ ⟨c, _, same⟩
    exact split b b' e c inside (l1_inj same)
  · rintro t x ⟨e, inside, rfl⟩
    refine ⟨?_, ?_⟩
    · rintro ⟨e', inside', same⟩
      have level := halves inside inside' (l1_inj same)
      omega
    · rintro ⟨c, _, same⟩
      exact split _ _ e c inside (l1_inj same)
  · rintro t x ⟨c, inside, rfl⟩ ⟨c', inside', same⟩
    have same := l1_inj same
    have level : (t + 1) % 2 % 2 = t % 2 % 2 := halves inside inside' (by omega)
    omega
  · rintro t t' _ _ x ⟨c, _, rfl⟩ ⟨e, same⟩
    cases same
  · rintro first
    cases first

/-- The pooling of one cluster as a tile kernel. -/
def kernel (l : MaxpoolLayer) (compute_num : Nat) (window : 0 < l.FH * l.FW)
    (some_core : 0 < compute_num) (even : compute_num ∣ l.tile_ci) :
    TileKernel MaxpoolArray Unit F compute_num l.operand l.result where
  code b core := pool l 0 compute_num core ⟨b % 2 == 1, b % 2 == 1, 0, 0, 0⟩
  part b core x := ∃ ci ∈ dealtRows compute_num 0 l.tile_ci,
    x = l1 0 (2 * l.window_size + b % 2 * l.tile_ci + (ci + core))
  part_result := by
    rintro b core worker x ⟨ci, dealt, rfl⟩
    obtain ⟨-, room⟩ := (mem_columns some_core even).mp dealt
    exact ⟨ci + core, by omega, rfl⟩
  part_apart := by
    rintro b core worker core' worker' other x ⟨ci, dealt, rfl⟩ ⟨ci', dealt', same⟩
    obtain ⟨⟨q, rfl⟩, -⟩ := (mem_columns some_core even).mp dealt
    obtain ⟨⟨q', rfl⟩, -⟩ := (mem_columns some_core even).mp dealt'
    have same := Nat.add_left_cancel (l1_inj same)
    rw [Nat.mul_comm, Nat.mul_comm compute_num q'] at same
    exact other (grid_inj worker worker' same).2
  within := by
    intro b core worker a member
    have buf : (b % 2 == 1).toNat = b % 2 := by
      rcases Nat.mod_two_eq_zero_or_one b with rest | rest <;> rw [rest] <;> rfl
    rw [pool_eq (b := b % 2) buf buf] at member
    obtain ⟨ci, dealt, inner⟩ := List.mem_flatMap.mp member
    obtain ⟨-, room⟩ := (mem_columns some_core even).mp dealt
    refine (poolChannel_within window).mono (fun x here => .inl ?_) ?_ a inner
    · obtain ⟨k, inside, rfl⟩ := here
      exact ⟨_, grid_lt inside (by omega), rfl⟩
    · rintro x (rfl | rfl)
      · exact .inl ⟨ci, dealt, rfl⟩
      · exact .inr ⟨0, rfl⟩

theorem apart (window : 0 < l.FH * l.FW) (some_core : 0 < compute_num) (some : 0 < l.tile_ci)
    (even : compute_num ∣ l.tile_ci) (whole : l.tile_ci ∣ l.CI) :
    (pipeline l compute_num prev : Pipeline (Step MaxpoolArray Unit F)).Apart
      Statement.semantics := by
  have compute : (pipeline l compute_num prev : Pipeline (Step MaxpoolArray Unit F)).compute =
      fun t => (kernel l compute_num window some_core even).code (t % 2) := by
    funext t core
    have buf : (t % 2 % 2 == 1).toNat = t % 2 := by
      rcases Nat.mod_two_eq_zero_or_one t with rest | rest <;> rw [rest] <;> rfl
    exact (pipeline_compute t core).trans (pool_eq buf buf).symm
  exact (transfers some whole).apart rfl compute

/-! ### What an iteration leaves -/

/-- The window of an output. -/
def MaxpoolLayer.window (l : MaxpoolLayer) (m : Mem → F) (e : Nat) : Set F :=
  {v | ∃ k < l.FH * l.FW, v = m (l.source (e / l.CI) (e % l.CI) k)}

/-- The code for a channel of the tile of iteration `t`, by core and multiple of the cores. -/
def channelCode (l : MaxpoolLayer) (t : Nat) (p : Nat × Nat) : List (Step MaxpoolArray Unit F) :=
  poolChannel (.own p.1 0) (l.FH * l.FW)
    (fun k => l1 0 (t % 2 * l.window_size + (k * l.tile_ci + (p.2 + p.1))))
    (l1 0 (2 * l.window_size + t % 2 * l.tile_ci + (p.2 + p.1)))

/-- The channels of all cores as one list. -/
theorem work_eq (t : Nat) :
    ((pipeline l compute_num prev).work t : List (Step MaxpoolArray Unit F)) =
      (List.range compute_num ×ˢ dealtRows compute_num 0 l.tile_ci).flatMap (channelCode l t) := by
  change _ = ((List.range compute_num).flatMap fun core =>
    (dealtRows compute_num 0 l.tile_ci).map (Prod.mk core)).flatMap (channelCode l t)
  rw [List.flatMap_assoc]
  exact List.flatMap_congr fun core _ => 
    (pipeline_compute t core).trans (List.flatMap_map (Prod.mk core) (channelCode l t) _).symm

/-- **All channels of the tile in the TCDM are pooled.** -/
theorem work_value (prev : Nat × Nat × Nat) (window : 0 < l.FH * l.FW) (some_core : 0 < compute_num)
    (even : compute_num ∣ l.tile_ci) (t : Nat) (m : Mem → F) {c : Nat} (channel : c < l.tile_ci) :
    IsGreatest {v | ∃ k < l.FH * l.FW, v = m (l1 0 (t % 2 * l.window_size + (k * l.tile_ci + c)))}
      (after Statement.run ((pipeline l compute_num prev).work t) m
        (l1 0 (2 * l.window_size + t % 2 * l.tile_ci + c))) := by
  have rest := Nat.mod_lt c some_core
  have split : c / compute_num * compute_num + c % compute_num = c := Nat.div_add_mod' c compute_num
  have first : c / compute_num * compute_num ∈ dealtRows compute_num 0 l.tile_ci :=
    (mem_dealtRows some_core).mpr ⟨by omega, Nat.mul_mod_left _ _⟩
  have nodup : (List.range compute_num ×ˢ dealtRows compute_num 0 l.tile_ci).Nodup :=
    List.nodup_range.product (nodup_dealtRows some_core)
  have member : (c % compute_num, c / compute_num * compute_num) ∈
      List.range compute_num ×ˢ dealtRows compute_num 0 l.tile_ci :=
    List.mem_product.mpr ⟨List.mem_range.mpr rest, first⟩
  obtain ⟨m', same, result⟩ := after_one (S := Statement.semantics) (f := channelCode (F := F) l t)
    member nodup m
  -- the window is only read, and the output of a channel is its own
  have keep : ∀ e, e < 2 * l.window_size ∨ e = 2 * l.window_size + t % 2 * l.tile_ci + c →
      OthersKeep Statement.semantics (List.range compute_num ×ˢ dealtRows compute_num 0 l.tile_ci)
        (channelCode (F := F) l t) (c % compute_num, c / compute_num * compute_num) (l1 0 e) := by
    rintro e here ⟨core, ci⟩ other different a inner written
    obtain ⟨worker, dealt⟩ := List.mem_product.mp other
    obtain ⟨⟨q, rfl⟩, -⟩ := (mem_columns some_core even).mp dealt
    rcases (poolChannel_within window a inner).2 _ written with target | target
    · have target := l1_inj target
      obtain rfl : q * compute_num + core = c := by
        rw [Nat.mul_comm q]
        omega
      refine different ?_
      rw [grid_mod (List.mem_range.mp worker), grid_div (List.mem_range.mp worker), Nat.mul_comm]
    · cases target
  have value : IsGreatest {v | ∃ k < l.FH * l.FW, v = m' (l1 0 (t % 2 * l.window_size +
      (k * l.tile_ci + (c / compute_num * compute_num + c % compute_num))))}
      (after Statement.run (channelCode l t (c % compute_num, c / compute_num * compute_num)) m'
        (l1 0 (2 * l.window_size + t % 2 * l.tile_ci +
          (c / compute_num * compute_num + c % compute_num)))) :=
    poolChannel_value window fun k same => by cases same
  rw [split] at value
  have kept : ∀ k < l.FH * l.FW, m' (l1 0 (t % 2 * l.window_size + (k * l.tile_ci + c))) =
      m (l1 0 (t % 2 * l.window_size + (k * l.tile_ci + c))) :=
    fun k inside => same _ (keep _ (.inl (half_lt (grid_lt inside channel))))
  have window : {v | ∃ k < l.FH * l.FW,
      v = m' (l1 0 (t % 2 * l.window_size + (k * l.tile_ci + c)))} =
      {v | ∃ k < l.FH * l.FW, v = m (l1 0 (t % 2 * l.window_size + (k * l.tile_ci + c)))} := by
    ext v
    exact exists_congr fun k => and_congr_right fun inside => by rw [kept k inside]
  rw [work_eq]
  exact window ▸ (result _ (keep _ (.inr rfl))) ▸ value

/-- Of external memory, an iteration writes the outputs of its tile. -/
theorem item_writes (window : 0 < l.FH * l.FW) (some : 0 < l.tile_ci) (whole : l.tile_ci ∣ l.CI)
    {t : Nat} (inside : t < (l.items 1 0).length) {x : Mem} (outer : x.External)
    (outside : ∀ c < l.tile_ci, x ≠ .ext .ofmap (l.output t c)) :
    ∀ a ∈ (pipeline l compute_num prev).item t, ¬(a : Step MaxpoolArray Unit F).writes x := by
  intro a member written
  rcases List.mem_append.mp member with front | member
  · rcases List.mem_append.mp front with member | member
    · rw [pipeline_load some whole inside] at member
      obtain ⟨e, _, rfl⟩ := List.mem_map.mp member
      obtain rfl : x = l1 0 (t % 2 * l.window_size + e) := written
      exact outer
    · rw [work_eq] at member
      obtain ⟨p, _, inner⟩ := List.mem_flatMap.mp member
      rcases (poolChannel_within window a inner).2 x written with rfl | rfl <;> exact outer
  · rw [pipeline_store] at member
    obtain ⟨c, small, rfl⟩ := List.mem_map.mp member
    exact outside c (List.mem_range.mp small) written

/-- **An iteration leaves the maxima of its tile** and no other trace outside. -/
theorem item_value (prev : Nat × Nat × Nat) (window : 0 < l.FH * l.FW)
    (some_core : 0 < compute_num) (some : 0 < l.tile_ci) (even : compute_num ∣ l.tile_ci)
    (whole : l.tile_ci ∣ l.CI) {t : Nat} (inside : t < (l.items 1 0).length) (m : Mem → F) :
    (∀ c < l.tile_ci, IsGreatest (l.window m (l.output t c))
        (after Statement.run ((pipeline l compute_num prev).item t) m
          (.ext .ofmap (l.output t c)))) ∧
      ∀ x : Mem, x.External → (∀ c < l.tile_ci, x ≠ .ext .ofmap (l.output t c)) →
        after Statement.run ((pipeline l compute_num prev).item t) m x = m x := by
  have room : (l.item t).2 + l.tile_ci ≤ l.CI :=
    ((mem_items some whole).mp (item_mem inside)).2.2
  constructor
  · intro c channel
    rw [Pipeline.item, after_append, after_append]
    have loaded : ∀ e < l.window_size,
        after Statement.run ((pipeline l compute_num prev).load t) m
            (l1 0 (t % 2 * l.window_size + e)) =
          m (l.source (l.item t).1 ((l.item t).2 + e % l.tile_ci) (e / l.tile_ci)) := by
      intro e element
      rw [pipeline_load some whole inside]
      refine (after_each (p := fun e => l1 0 (t % 2 * l.window_size + e))
        (fun _ _ _ written => written) ?_ ?_ element).trans (Function.update_self _ _ _)
      · exact fun r _ r' _ same => Nat.add_left_cancel (l1_inj same)
      · rintro r _ r' _ _ (same | same | same) <;> cases same
    have stored : ∀ m : Mem → F, after Statement.run ((pipeline l compute_num prev).store t) m
        (.ext .ofmap (l.output t c)) = m (l1 0 (2 * l.window_size + t % 2 * l.tile_ci + c)) := by
      intro m
      rw [pipeline_store]
      refine (after_each (p := fun c => (.ext .ofmap (l.output t c) : Mem))
        (fun _ _ _ written => written) ?_ ?_ channel).trans (Function.update_self _ _ _)
      · intro r _ r' _ same
        injection same with _ same
        unfold MaxpoolLayer.output at same
        omega
      · rintro r _ r' _ _ (same | same | same) <;> cases same
    have value := work_value prev window some_core even t
      (after Statement.run ((pipeline l compute_num prev).load t) m) channel
    have same : {v | ∃ k < l.FH * l.FW, v = after Statement.run
        ((pipeline l compute_num prev).load t) m
          (l1 0 (t % 2 * l.window_size + (k * l.tile_ci + c)))} =
        l.window m (l.output t c) := by
      ext v
      refine exists_congr fun k => and_congr_right fun small => ?_
      rw [loaded _ (grid_lt small channel), grid_div channel, grid_mod channel,
        MaxpoolLayer.output, grid_div (by omega), grid_mod (by omega)]
    rw [stored]
    exact same ▸ value
  · exact fun x outer outside => after_frame (S := Statement.semantics)
      (item_writes window some whole inside outer outside)

/-- **The iterations leave the maxima of all tiles so far.** -/
theorem sequential_value (prev : Nat × Nat × Nat) (window : 0 < l.FH * l.FW)
    (some_core : 0 < compute_num) (some : 0 < l.tile_ci) (even : compute_num ∣ l.tile_ci)
    (whole : l.tile_ci ∣ l.CI) (m : Mem → F) :
    (∀ t < (l.items 1 0).length, ∀ c < l.tile_ci, IsGreatest (l.window m (l.output t c))
        ((pipeline l compute_num prev).sequential Statement.semantics m
          (.ext .ofmap (l.output t c)))) ∧
      ∀ x : Mem, x.External →
        (∀ t < (l.items 1 0).length, ∀ c < l.tile_ci, x ≠ .ext .ofmap (l.output t c)) →
          (pipeline l compute_num prev).sequential Statement.semantics m x = m x := by
  refine loop_invariant (fun n (m' : Mem → F) =>
    (∀ t < n, ∀ c < l.tile_ci, IsGreatest (l.window m (l.output t c))
      (m' (.ext .ofmap (l.output t c)))) ∧
    ∀ x : Mem, x.External → (∀ t < n, ∀ c < l.tile_ci, x ≠ .ext .ofmap (l.output t c)) →
      m' x = m x) ⟨by simp, fun _ _ _ => rfl⟩ ?_
  rintro n inside m' ⟨greatest, frame⟩
  obtain ⟨value, kept⟩ := item_value prev window some_core some even whole inside m'
  have same : ∀ e, l.window m' e = l.window m e := by
    intro e
    ext v
    refine exists_congr fun k => and_congr_right fun _ => ?_
    rw [frame (l.source (e / l.CI) (e % l.CI) k) trivial fun _ _ _ _ same => by cases same]
  constructor
  · intro t small c channel
    by_cases again : ∃ c' < l.tile_ci, l.output t c = l.output n c'
    · obtain ⟨c', channel', again⟩ := again
      rw [again, ← same]
      exact value c' channel'
    · have old : t < n := by
        refine Nat.lt_of_le_of_ne (Nat.le_of_lt_succ small) ?_
        rintro rfl
        exact again ⟨c, channel, rfl⟩
      have stays : after Statement.semantics.run ((pipeline l compute_num prev).item n) m'
          (.ext .ofmap (l.output t c)) = m' (.ext .ofmap (l.output t c)) :=
        kept _ trivial fun c' channel' here => again ⟨c', channel', by injection here⟩
      rw [stays]
      exact greatest t old c channel
  · intro x outer outside
    refine (kept x outer (outside n (Nat.lt_succ_self n))).trans ?_
    exact frame x outer fun t small => outside t (Nat.lt_succ_of_lt small)

/-! ### The layer -/

/-- An output of the layer and an element of its window. -/
def MaxpoolLayer.ofmapElement (l : MaxpoolLayer) (oh ow c : Nat) : Mem :=
  .ext .ofmap ((oh * l.OW + ow) * l.CI + c)

def MaxpoolLayer.ifmapElement (l : MaxpoolLayer) (oh ow fh fw c : Nat) : Mem :=
  .ext .ifmap (((oh * l.FH + fh) * l.IW + (ow * l.FW + fw)) * l.CI + c)

/-- Runs are finite and do not get stuck, each leaves in every output the maximum of its window, and
none ever changes another word of external memory. -/
structure Pools (l : MaxpoolLayer) (prog : Program Nat (Step MaxpoolArray Unit F)) : Prop where
  bounded : ∀ m schedule s,
    (prog.machine Statement.semantics).run (Program.start m) schedule = some s →
      schedule.length ≤ prog.size
  through : ∀ m s, (prog.machine Statement.semantics).Reachable (Program.start m) s →
    (∀ i, prog.step Statement.semantics i s = none) →
      ∀ i < prog.agents, prog.schedule.length ≤ (s.place i).1
  maxima : ∀ m s, (prog.machine Statement.semantics).Reachable (Program.start m) s →
    (∀ i < prog.agents, prog.schedule.length ≤ (s.place i).1) →
      ∀ oh < l.OH, ∀ ow < l.OW, ∀ c < l.CI,
        IsGreatest {v | ∃ fh < l.FH, ∃ fw < l.FW, v = m (l.ifmapElement oh ow fh fw c)}
          (s.memory (l.ofmapElement oh ow c))
  frame : ∀ m s, (prog.machine Statement.semantics).Reachable (Program.start m) s →
    ∀ x : Mem, x.External →
      (∀ oh < l.OH, ∀ ow < l.OW, ∀ c < l.CI, x ≠ l.ofmapElement oh ow c) → s.memory x = m x

/-- Every output is one of some tile. -/
theorem output_of {oh ow c : Nat} (row : oh < l.OH) (column : ow < l.OW) (channel : c < l.CI)
    (some : 0 < l.tile_ci) (whole : l.tile_ci ∣ l.CI) :
    ∃ t < (l.items 1 0).length, ∃ c' < l.tile_ci, l.output t c' = (oh * l.OW + ow) * l.CI + c := by
  have split : c / l.tile_ci * l.tile_ci + c % l.tile_ci = c := Nat.div_add_mod' c l.tile_ci
  have room : c / l.tile_ci * l.tile_ci + l.tile_ci ≤ l.CI := by
    rw [← Nat.succ_mul, ← Nat.div_mul_cancel whole]
    exact Nat.mul_le_mul_right _ (Nat.div_lt_div_of_lt_of_dvd whole channel)
  have member := (mem_items some whole).mpr
    ⟨grid_lt row column, Nat.dvd_mul_left l.tile_ci (c / l.tile_ci), room⟩
  obtain ⟨t, inside, here⟩ := List.mem_iff_getElem.mp member
  refine ⟨t, inside, c % l.tile_ci, Nat.mod_lt c some, ?_⟩
  rw [MaxpoolLayer.output, MaxpoolLayer.item, List.getD_eq_getElem _ _ inside, here, split]

/-- The outputs of a tile are outputs of the layer. -/
theorem output_inside {t c : Nat} (inside : t < (l.items 1 0).length) (small : c < l.tile_ci)
    (whole : l.tile_ci ∣ l.CI) : ∃ oh < l.OH, ∃ ow < l.OW, ∃ c' < l.CI,
      l.output t c = (oh * l.OW + ow) * l.CI + c' := by
  obtain ⟨pixel, -, room⟩ := (mem_items (Nat.zero_lt_of_lt small) whole).mp (item_mem inside)
  have room : (l.item t).2 + l.tile_ci ≤ l.CI := room
  have columns : 0 < l.OW := Nat.pos_of_mul_pos_left (Nat.zero_lt_of_lt pixel)
  refine ⟨(l.item t).1 / l.OW, Nat.div_lt_of_lt_mul (Nat.mul_comm l.OH l.OW ▸ pixel),
    (l.item t).1 % l.OW, Nat.mod_lt _ columns, (l.item t).2 + c, by omega, ?_⟩
  rw [Nat.div_add_mod', MaxpoolLayer.output]

omit [LinearOrder F] in
theorem window_eq (m : Mem → F) {oh ow c : Nat} (column : ow < l.OW) (channel : c < l.CI) :
    l.window m ((oh * l.OW + ow) * l.CI + c) =
      {v | ∃ fh < l.FH, ∃ fw < l.FW, v = m (l.ifmapElement oh ow fh fw c)} := by
  ext v
  simp only [MaxpoolLayer.window, MaxpoolLayer.source, grid_div channel, grid_mod channel,
    grid_div column, grid_mod column, Set.mem_ofPred_eq]
  constructor
  · rintro ⟨k, inside, rfl⟩
    have some : 0 < l.FW := Nat.pos_of_mul_pos_left (Nat.zero_lt_of_lt inside)
    exact ⟨k / l.FW, Nat.div_lt_of_lt_mul (Nat.mul_comm l.FH l.FW ▸ inside), k % l.FW,
      Nat.mod_lt k some, rfl⟩
  · rintro ⟨fh, row, fw, here, rfl⟩
    refine ⟨fh * l.FW + fw, grid_lt row here, ?_⟩
    rw [grid_div here, grid_mod here]
    rfl

/-- **One cluster pools every output** when it has something to do and its cores divide a tile
evenly: every run leaves the maximum of each window and changes nothing else outside. -/
theorem maxpool_layer_pools (l : MaxpoolLayer) (cluster_num compute_num : Nat)
    (prev : Nat → Nat × Nat × Nat) (single : cluster_num = 1) (rows : 0 < l.OH)
    (columns : 0 < l.OW) (channels : 0 < l.CI) (filter : 0 < l.FH ∧ 0 < l.FW)
    (whole : l.tile_ci ∣ l.CI) (even : compute_num ∣ l.tile_ci) :
    Pools l (maxpool_layer l cluster_num compute_num prev : Program Nat (Step _ _ F)) := by
  subst single
  have some : 0 < l.tile_ci := Nat.pos_of_dvd_of_pos whole channels
  have some_core : 0 < compute_num := Nat.pos_of_dvd_of_pos even some
  have window : 0 < l.FH * l.FW := Nat.mul_pos filter.1 filter.2
  have machine : (maxpool_layer l 1 compute_num prev : Program Nat (Step _ _ F)).machine
      Statement.semantics = (pipeline l compute_num (prev 0)).program.machine Statement.semantics :=
    congrArg Interleaving.mk
      (maxpool_layer_step (Nat.mul_pos rows columns) channels whole Statement.semantics)
  have sequential := fun m => sequential_value (prev 0) window some_core some even whole
    (m : Mem → F)
  constructor
  · exact fun _ _ _ ran => Program.run_length ran
  · exact fun _ _ reached stuck => (Program.fits_of_reachable reached).through stuck
  · intro m s reached ended oh row ow column c channel
    rw [machine] at reached
    have ended : ∀ i < compute_num + 1, (l.items 1 0).length + 2 ≤ (s.place i).1 := by
      intro i agent
      have here := ended i (Nat.lt_of_lt_of_eq agent (Nat.one_mul _).symm)
      exact List.length_range (n := (l.items 1 0).length + 2) ▸ here
    obtain ⟨t, inside, c', small, here⟩ := output_of row column channel some whole
    have value := (sequential m).1 t inside c' small
    rw [here, window_eq m column channel] at value
    rw [(apart window some_core some even whole).memory_done reached
      fun i agent => (List.length_range ..).le.trans (ended i agent)]
    exact value
  · intro m s reached x outer outside
    rw [machine] at reached
    refine Program.reachable_frame reached fun p planned i agent a member => ?_
    obtain ⟨t, inside, member⟩ := Pipeline.mem_item planned agent member
    refine item_writes window some whole inside outer (fun c small here => ?_) a member
    obtain ⟨oh, row, ow, column, c', channel, element⟩ := output_inside inside small whole
    exact outside oh row ow column c' channel (here.trans (congrArg _ element))

theorem maxpool_layer_pools_two :
    Pools ⟨4, 4, 2, 2, 2, 2, 4⟩ (maxpool_layer ⟨4, 4, 2, 2, 2, 2, 4⟩ 1 2 fun _ => (5, 5, 5) :
      Program Nat (Step _ _ ℤ)) :=
  maxpool_layer_pools _ 1 2 _ rfl (by decide) (by decide) (by decide) (by decide) (by decide)
    (by decide)

/-- A TCDM that is not cleared. -/
def leftover : Mem → ℤ
  | .loc _ _ _ => 1
  | _ => 0

/-- The second of two clusters has no tile, and stores what it finds where it finds it. -/
theorem idle_cluster_stores : ¬Pools ⟨1, 1, 1, 1, 1, 1, 1⟩
    (maxpool_layer ⟨1, 1, 1, 1, 1, 1, 1⟩ 2 1 fun _ => (7, 0, 0) : Program Nat (Step _ _ ℤ)) := by
  intro pools
  have ran : (((maxpool_layer ⟨1, 1, 1, 1, 1, 1, 1⟩ 2 1 fun _ => (7, 0, 0)).machine
      Statement.semantics).run (Program.start leftover) [2, 2]).map
        (fun s => s.memory (.ext .ofmap 7)) = some 1 := by
    decide
  obtain ⟨s, run, value⟩ := Option.map_eq_some_iff.mp ran
  have same := pools.frame leftover s (Interleaving.reachable_run _ [2, 2] run) (.ext .ofmap 7)
    trivial ?_
  · rw [value] at same
    exact absurd same (by decide)
  · intro oh row ow column c channel same
    obtain rfl : oh = 0 := Nat.lt_one_iff.mp row
    obtain rfl : ow = 0 := Nat.lt_one_iff.mp column
    obtain rfl : c = 0 := Nat.lt_one_iff.mp channel
    injection same with _ same
    cases same

end Runs

end SnitchCluster.Kernels.Maxpool
