/-
# Kernels.KmeansRounds -- what the iterations of k-means compute

Phase by phase: the assignment leaves each sample's nearest centroid and each core's counts, the
update each core's sums, the reductions add them up over the cores and the clusters, and the
division leaves a round of Lloyd's algorithm.
-/
import SnitchCluster.Kernels.Kmeans

namespace SnitchCluster.Kernels.Kmeans

open Theory Theory.Loops Theory.Supersteps Theory.Lloyd

/-! ## A core's code -/

section Sequential

open Loc Word Statement

variable {F : Type} {z : Sizes} {c i t s k n : Nat} {m : Loc → Word F}

/-- A transfer, word by word. -/
theorem after_copies {x y : Nat → Loc} (apart : ∀ j k, x j = x k → j = k)
    (source : ∀ j k, y j ≠ x k) {j : Nat} (inside : j < n) :
    after Statement.run ((List.range n).map fun k => copy (x k) (y k)) m (x j) = m (y j) := by
  rw [after_map]
  refine (loop_invariant (fun n (m' : Loc → Word F) => (∀ j < n, m' (x j) = m (y j)) ∧
    ∀ k, m' (y k) = m (y k)) ⟨fun j none => absurd none (Nat.not_lt_zero j), fun _ => rfl⟩ ?_).1 j
      inside
  rintro n - m' ⟨so_far, sources⟩
  refine ⟨fun j below => ?_, fun k => ?_⟩
  · rcases Nat.lt_succ_iff_lt_or_eq.mp below with before | rfl
    · have other : x j ≠ x n := fun same => before.ne (apart j n same)
      exact (Function.update_of_ne other _ _).trans (so_far j before)
    · exact (Function.update_self _ _ _).trans (sources j)
  · exact (Function.update_of_ne (source k n) _ _).trans (sources k)

section Minimum

variable [LinearOrder F]

/-- The minimum after the first centroids. -/
def least (k : Nat) (dist : Nat → F) : Word F :=
  match (List.range k).argmin dist with
  | none => inf
  | some best => double (dist best)

/-- One more centroid: the minimum, and where it is. -/
theorem least_succ {dist : Nat → F} :
    least (k + 1) dist = (if (double (dist k)).lt (least k dist) then double (dist k)
      else least k dist) ∧
    nearest (k + 1) dist = if (double (dist k)).lt (least k dist) then k else nearest k dist := by
  unfold least nearest
  rw [argmin_range_succ]
  cases (List.range k).argmin dist with
  | none => simp [lt]
  | some best =>
    by_cases less : dist k < dist best
    · simp [lt, less]
    · simp [lt, less]

end Minimum

variable [Field F]

theorem after_distance {sum : Loc} {x y : Nat → Loc} {u v : Nat → F}
    (left : ∀ f < n, x f ≠ sum ∧ m (x f) = double (u f))
    (right : ∀ f < n, y f ≠ sum ∧ m (y f) = double (v f)) :
    after Statement.run (euclidean_distance_squared n sum x y) m =
      Function.update m sum (double (squaredDistance n u v)) := by
  rw [euclidean_distance_squared, after_cons, after_map]
  refine loop_invariant (fun n m' => m' = Function.update m sum (double (squaredDistance n u v)))
    rfl ?_
  rintro f inside m' rfl
  obtain ⟨other, at_x⟩ := left f inside
  obtain ⟨other', at_y⟩ := right f inside
  change Function.update _ sum _ = _
  rw [Function.update_idem, Function.update_self, Function.update_of_ne other,
    Function.update_of_ne other', at_x, at_y]
  simp only [squaredDistance, Finset.sum_range_succ, toDouble]

variable [LinearOrder F]

theorem current_ne {x : Loc} {e : Nat} (other : ∀ k, x ≠ local_centroids c k)
    (other' : ∀ k, x ≠ partial_centroids 0 0 k) : current t c e ≠ x := by
  unfold current
  split
  · exact (other e).symm
  · exact (other' e).symm

/-- The loop over the centroids finds the nearest one. -/
theorem after_comparisons {u : Nat → F} {v : Nat → Nat → F} {dist : Nat → F}
    (is : dist = fun k => squaredDistance z.n_features u (v k))
    (features : ∀ f < z.n_features, m (local_samples c (s * z.n_features + f)) = double (u f))
    (centroids : ∀ k < z.n_clusters, ∀ f < z.n_features,
      m (current t c (k * z.n_features + f)) = double (v k f))
    (minimum : m (min_dist c i) = inf) (first : m (membership c s) = uint32 0) :
    let m' := after Statement.run
      ((List.range z.n_clusters).flatMap (compareCentroid z t c i s)) m
    m' (membership c s) = uint32 (nearest z.n_clusters dist) ∧
      ∀ x, x ≠ sum c i → x ≠ min_dist c i → x ≠ membership c s → m' x = m x := by
  subst is
  intro m'
  generalize is : (fun k => squaredDistance z.n_features u (v k)) = dist
  have progress : m' (min_dist c i) = least z.n_clusters dist ∧
      m' (membership c s) = uint32 (nearest z.n_clusters dist) ∧
      ∀ x, x ≠ sum c i → x ≠ min_dist c i → x ≠ membership c s → m' x = m x := by
    have unrolled : m' = loop z.n_clusters
        (fun k => after Statement.run (compareCentroid z t c i s k)) m := after_range _ _
    rw [unrolled]
    refine loop_invariant (fun k (m' : Loc → Word F) => m' (min_dist c i) = least k dist ∧
        m' (membership c s) = uint32 (nearest k dist) ∧
        ∀ x, x ≠ sum c i → x ≠ min_dist c i → x ≠ membership c s → m' x = m x)
      ⟨minimum, first, fun _ _ _ _ => rfl⟩ ?_
    rintro k below m' ⟨best, member, kept⟩
    have apart : ∀ e, current t c e ≠ sum c i ∧ current t c e ≠ min_dist c i ∧
        current t c e ≠ membership c s := fun e =>
      ⟨current_ne (by simp) (by simp), current_ne (by simp) (by simp), current_ne (by simp) (by simp)⟩
    have distance : after Statement.run (euclidean_distance_squared z.n_features (sum c i)
        (fun f => local_samples c (s * z.n_features + f))
        (fun f => current t c (k * z.n_features + f))) m' =
          Function.update m' (sum c i) (double (dist k)) := by
      rw [← congrFun is k]
      refine after_distance (fun f inside => ⟨by simp, ?_⟩) fun f inside => ⟨(apart _).1, ?_⟩
      · exact (kept _ (by simp) (by simp) (by simp)).trans (features f inside)
      · exact (kept _ (apart _).1 (apart _).2.1 (apart _).2.2).trans (centroids k below f inside)
    rw [compareCentroid, after_append, distance]
    simp only [after_cons, after_nil, Statement.assign]
    refine ⟨?_, ?_, fun x other other' other'' => ?_⟩
    · simp [best, least_succ]
    · rw [least_succ.2]
      by_cases less : (double (dist k)).lt (least k dist) <;> simp [best, member, less]
    · simp [other, other', other'', kept]
  exact progress.2

/-- A sample is assigned and counted. -/
theorem after_assignSample {u : Nat → F} {v : Nat → Nat → F} {dist : Nat → F}
    (is : dist = fun k => squaredDistance z.n_features u (v k))
    (features : ∀ f < z.n_features, m (local_samples c (s * z.n_features + f)) = double (u f))
    (centroids : ∀ k < z.n_clusters, ∀ f < z.n_features,
      m (current t c (k * z.n_features + f)) = double (v k f)) :
    let m' := after Statement.run (assignSample z t c i s) m
    m' (membership c s) = uint32 (nearest z.n_clusters dist) ∧
      (∀ k, m' (partial_membership_cnt c i k) = if nearest z.n_clusters dist = k
        then uint32 ((m (partial_membership_cnt c i k)).toNat + 1)
        else m (partial_membership_cnt c i k)) ∧
      ∀ x, x ≠ sum c i → x ≠ min_dist c i → x ≠ membership c s →
        (∀ k, x ≠ partial_membership_cnt c i k) → m' x = m x := by
  intro m'
  let m₁ := Function.update (Function.update m (min_dist c i) inf) (membership c s) (uint32 0)
  have kept₁ : ∀ x, x ≠ min_dist c i → x ≠ membership c s → m₁ x = m x := fun x other other' => by
    simp [m₁, other, other']
  have apart : ∀ e, current t c e ≠ min_dist c i ∧ current t c e ≠ membership c s := fun e =>
    ⟨current_ne (by simp) (by simp), current_ne (by simp) (by simp)⟩
  obtain ⟨found, kept⟩ := after_comparisons (m := m₁) is
    (fun f inside => (kept₁ _ (by simp) (by simp)).trans (features f inside))
    (fun k below f inside => (kept₁ _ (apart _).1 (apart _).2).trans (centroids k below f inside))
    (show m₁ (min_dist c i) = inf by simp [m₁]) (show m₁ (membership c s) = uint32 0 by simp [m₁])
  have last : m' = Statement.run
      (.scatter (partial_membership_cnt c i) (membership c s) (membership c s) toNat
        fun n _ => uint32 (n.toNat + 1))
      (after Statement.run ((List.range z.n_clusters).flatMap (compareCentroid z t c i s)) m₁) := by
    simp only [m', assignSample, after_append, after_cons, after_nil]
    rfl
  generalize after Statement.run ((List.range z.n_clusters).flatMap (compareCentroid z t c i s)) m₁
    = m₂ at found kept last
  have counts : ∀ k, m₂ (partial_membership_cnt c i k) = m (partial_membership_cnt c i k) :=
    fun k => (kept _ (by simp) (by simp) (by simp)).trans (kept₁ _ (by simp) (by simp))
  rw [last]
  simp only [Statement.scatter, found, Word.toNat]
  refine ⟨by simp [found], fun k => ?_, fun x other other' other'' outside => ?_⟩
  · by_cases here : nearest z.n_clusters dist = k
    · simp [here, counts]
    · rw [if_neg here, Function.update_of_ne (by simpa using Ne.symm here), counts]
  · rw [Function.update_of_ne (outside _), kept x other other' other'', kept₁ x other' other'']

/-- **The assignment step of a core**, its samples numbered within the cluster. -/
theorem after_assign {u : Nat → Nat → F} {v : Nat → Nat → F} {near : Nat → Nat}
    (is : near = assignment z.n_clusters z.n_features u v)
    (features : ∀ s < z.n_samples_per_core, ∀ f < z.n_features,
      m (local_samples c ((i * z.n_samples_per_core + s) * z.n_features + f)) =
        double (u (i * z.n_samples_per_core + s) f))
    (centroids : ∀ k < z.n_clusters, ∀ f < z.n_features,
      m (current t c (k * z.n_features + f)) = double (v k f)) :
    let m' := after Statement.run (assignCode z t c i) m
    (∀ s < z.n_samples_per_core, m' (membership c (i * z.n_samples_per_core + s)) =
      uint32 (near (i * z.n_samples_per_core + s))) ∧
    ∀ k < z.n_clusters, m' (partial_membership_cnt c i k) =
      uint32 (tally (fun _ => 1) near k (i * z.n_samples_per_core) z.n_samples_per_core) := by
  intro m'
  let cleared := after Statement.run ((List.range z.n_clusters).map fun k =>
    (set (partial_membership_cnt c i k) (uint32 0) : Statement Loc (Word F))) m
  have zeros : ∀ k < z.n_clusters, cleared (partial_membership_cnt c i k) = uint32 0 := by
    intro k below
    simp only [cleared]
    rw [after_map]
    exact loop_once (fun m : Loc → Word F => m (partial_membership_cnt c i k))
      (g := fun _ => uint32 0) below
      (fun j _ other m => Function.update_of_ne (by simpa using other.symm) _ _)
      fun m => Function.update_self _ _ _
  have kept : ∀ x, (∀ k, x ≠ partial_membership_cnt c i k) → cleared x = m x := by
    intro x outside
    exact Within.frame (R := fun _ => True) (W := fun x => ∃ k, x = partial_membership_cnt c i k)
      (by simp [set, Statement.assign]) (by simpa using outside)
  have progress : (∀ s < z.n_samples_per_core, m' (membership c (i * z.n_samples_per_core + s)) =
      uint32 (near (i * z.n_samples_per_core + s))) ∧
      (∀ k < z.n_clusters, m' (partial_membership_cnt c i k) =
        uint32 (tally (fun _ => 1) near k (i * z.n_samples_per_core) z.n_samples_per_core)) ∧
      ∀ x, x ≠ sum c i → x ≠ min_dist c i → (∀ s, x ≠ membership c s) →
        (∀ k, x ≠ partial_membership_cnt c i k) → m' x = m x := by
    have unrolled : m' = loop z.n_samples_per_core (fun s =>
        after Statement.run (assignSample z t c i (i * z.n_samples_per_core + s))) cleared := by
      simp only [m', assignCode, after_append, after_range, cleared]
    rw [unrolled]
    refine loop_invariant (fun n (m' : Loc → Word F) =>
      (∀ s < n, m' (membership c (i * z.n_samples_per_core + s)) =
        uint32 (near (i * z.n_samples_per_core + s))) ∧
      (∀ k < z.n_clusters, m' (partial_membership_cnt c i k) =
        uint32 (tally (fun _ => 1) near k (i * z.n_samples_per_core) n)) ∧
      ∀ x, x ≠ sum c i → x ≠ min_dist c i → (∀ s, x ≠ membership c s) →
        (∀ k, x ≠ partial_membership_cnt c i k) → m' x = m x)
      ⟨fun s none => absurd none (Nat.not_lt_zero s), zeros, fun x _ _ _ => kept x⟩ ?_
    rintro s inside m' ⟨members, counts, others⟩
    obtain ⟨member, counted, still⟩ := after_assignSample (m := m') (i := i)
      (u := u (i * z.n_samples_per_core + s)) (v := v) rfl
      (fun f column => (others _ (by simp) (by simp) (by simp) (by simp)).trans
        (features s inside f column))
      (fun k below f column => (others _ (current_ne (by simp) (by simp))
        (current_ne (by simp) (by simp)) (fun _ => current_ne (by simp) (by simp))
        fun _ => current_ne (by simp) (by simp)).trans (centroids k below f column))
    have here : nearest z.n_clusters (fun k => squaredDistance z.n_features
        (u (i * z.n_samples_per_core + s)) (v k)) = near (i * z.n_samples_per_core + s) := by
      rw [is]
      rfl
    rw [here] at member counted
    refine ⟨fun s' below => ?_, fun k below => ?_, fun x other other' outside outside' => ?_⟩
    · rcases Nat.lt_succ_iff_lt_or_eq.mp below with before | rfl
      · refine (still _ (by simp) (by simp) ?_ (by simp)).trans (members s' before)
        simpa using before.ne
      · exact member
    · rw [counted, counts k below, tally_succ]
      split <;> rfl
    · exact (still x other other' (outside _) outside').trans (others x other other' outside outside')
  exact ⟨progress.1, progress.2.1⟩

omit [LinearOrder F]

/-- The features of a sample are added to the sums of its centroid. -/
theorem after_features {near : Nat} {u : Nat → F}
    (member : m (membership c s) = uint32 near)
    (features : ∀ f < z.n_features, m (local_samples c (s * z.n_features + f)) = double (u f)) :
    let m' := after Statement.run ((List.range z.n_features).map (addFeature z c i s)) m
    (∀ k, ∀ f < z.n_features, m' (partial_centroids c i (k * z.n_features + f)) =
      if near = k then double ((m (partial_centroids c i (k * z.n_features + f))).toDouble + u f)
      else m (partial_centroids c i (k * z.n_features + f))) ∧
    ∀ x, (∀ e, x ≠ partial_centroids c i e) → m' x = m x := by
  refine ⟨fun k f column => ?_, fun x outside => ?_⟩
  · let view (m : Loc → Word F) := (m (partial_centroids c i (k * z.n_features + f)),
      m (membership c s), m (local_samples c (s * z.n_features + f)))
    have changed : view (loop z.n_features (fun f => (addFeature z c i s f).run) m) =
        (if (view m).2.1.toNat = k then double ((view m).1.toDouble + (view m).2.2.toDouble)
          else (view m).1, (view m).2) := by
      refine loop_once view (g := fun w =>
        (if w.2.1.toNat = k then double (w.1.toDouble + w.2.2.toDouble) else w.1, w.2)) column ?_ ?_
      · intro f' column' other m
        have apart : k * z.n_features + f ≠ (m (membership c s)).toNat * z.n_features + f' :=
          fun same => other (grid_inj column column' same).2.symm
        exact Prod.ext (Function.update_of_ne (fun same => apart (by injection same)) _ _) rfl
      · intro m
        by_cases mine : (m (membership c s)).toNat = k
        · simp [view, addFeature, Statement.scatter, mine]
        · have apart : k * z.n_features + f ≠ (m (membership c s)).toNat * z.n_features + f :=
            fun same => mine (grid_inj column column same).1.symm
          simp only [view, if_neg mine]
          exact Prod.ext (Function.update_of_ne (fun same => apart (by injection same)) _ _) rfl
    have value := congrArg Prod.fst changed
    simp only [view, member, features f column, Word.toNat, Word.toDouble] at value
    rw [after_map]
    exact value
  · exact Within.frame (R := fun _ => True) (W := fun x => ∃ e, x = partial_centroids c i e)
      (by simp [addFeature, Statement.scatter]) (by simpa using outside)

/-- **The update step of a core.** -/
theorem after_update {u : Nat → Nat → F} (near : Nat → Nat)
    (members : ∀ s < z.n_samples_per_core, m (membership c (i * z.n_samples_per_core + s)) =
      uint32 (near (i * z.n_samples_per_core + s)))
    (features : ∀ s < z.n_samples_per_core, ∀ f < z.n_features,
      m (local_samples c ((i * z.n_samples_per_core + s) * z.n_features + f)) =
        double (u (i * z.n_samples_per_core + s) f)) :
    ∀ k < z.n_clusters, ∀ f < z.n_features,
      after Statement.run (updateCode z c i) m (partial_centroids c i (k * z.n_features + f)) =
        double (tally (u · f) near k (i * z.n_samples_per_core) z.n_samples_per_core) := by
  let cleared := after Statement.run ((List.range z.n_clusters).flatMap fun k =>
    (List.range z.n_features).map fun f =>
      (set (partial_centroids c i (k * z.n_features + f)) (double 0) : Statement Loc (Word F))) m
  have zeros : ∀ k < z.n_clusters, ∀ f < z.n_features,
      cleared (partial_centroids c i (k * z.n_features + f)) = double 0 := by
    intro k row f column
    simp only [cleared]
    rw [after_grid]
    refine loop_grid (fun m : Loc → Word F => m (partial_centroids c i (k * z.n_features + f)))
      (g := fun _ => double 0) row column ?_ fun m => Function.update_self _ _ _
    intro k' _ f' column' other m
    have apart : k * z.n_features + f ≠ k' * z.n_features + f' := fun same => by
      obtain ⟨rfl, rfl⟩ := grid_inj column column' same
      exact other.elim (· rfl) (· rfl)
    exact Function.update_of_ne (fun same => apart (by injection same)) _ _
  have kept : ∀ x, (∀ e, x ≠ partial_centroids c i e) → cleared x = m x := by
    intro x outside
    exact Within.frame (R := fun _ => True) (W := fun x => ∃ e, x = partial_centroids c i e)
      (by simp [set, Statement.assign]) (by simpa using outside)
  have unrolled : after Statement.run (updateCode z c i) m = loop z.n_samples_per_core (fun s =>
      after Statement.run ((List.range z.n_features).map
        (addFeature z c i (i * z.n_samples_per_core + s)))) cleared := by
    simp only [updateCode, after_append, after_range, cleared]
  rw [unrolled]
  refine (loop_invariant (fun n (m' : Loc → Word F) => (∀ k < z.n_clusters, ∀ f < z.n_features,
    m' (partial_centroids c i (k * z.n_features + f)) =
      double (tally (u · f) near k (i * z.n_samples_per_core) n)) ∧
    ∀ x, (∀ e, x ≠ partial_centroids c i e) → m' x = m x) ⟨zeros, kept⟩ ?_).1
  rintro s inside m' ⟨sums, others⟩
  obtain ⟨added, still⟩ := after_features (z := z) (c := c) (i := i) (m := m')
    ((others _ (by simp)).trans (members s inside))
    (fun f column => (others _ (by simp)).trans (features s inside f column))
  refine ⟨fun k row f column => ?_, fun x outside => (still x outside).trans (others x outside)⟩
  rw [added k f column, sums k row f column, tally_succ]
  split
  · simp [toDouble]
  · simp

/-- Two words of the memory. -/
def pair (x y : Loc) (m : Loc → Word F) : Word F × Word F := (m x, m y)

omit [Field F] in
theorem pair_frame (a : Statement Loc (Word F)) {x y : Loc} (left : ¬a.writes x)
    (right : ¬a.writes y) : pair x y (a.run m) = pair x y m :=
  Prod.ext (a.frame m x left) (a.frame m y right)

theorem counts_apart {c' i' k' : Nat} (other : ¬(c = c' ∧ i = i')) :
    partial_membership_cnt c' i' k' ≠ partial_membership_cnt c i k := fun same => by
  injection same with cluster core
  exact other ⟨cluster.symm, core.symm⟩

theorem sums_apart {c' i' k' : Nat} (other : ¬(c = c' ∧ i = i')) :
    partial_centroids c' i' k' ≠ partial_centroids c i k := fun same => by
  injection same with cluster core
  exact other ⟨cluster.symm, core.symm⟩

/-- The counters and sums of another core are added. -/
theorem after_accumulate {c' i' : Nat} (other : ¬(c = c' ∧ i = i')) :
    let m' := after Statement.run (accumulate z c i c' i') m
    (∀ k < z.n_clusters, m' (partial_membership_cnt c i k) =
      uint32 ((m (partial_membership_cnt c i k)).toNat +
        (m (partial_membership_cnt c' i' k)).toNat)) ∧
    (∀ k < z.n_clusters, ∀ f < z.n_features, m' (partial_centroids c i (k * z.n_features + f)) =
      double ((m (partial_centroids c i (k * z.n_features + f))).toDouble +
        (m (partial_centroids c' i' (k * z.n_features + f))).toDouble)) ∧
    ∀ x, (∀ k, x ≠ partial_membership_cnt c i k) → (∀ e, x ≠ partial_centroids c i e) →
      m' x = m x := by
  have unrolled : after Statement.run (accumulate z c i c' i') m = loop z.n_clusters (fun k m =>
      loop z.n_features (fun f => (addDouble (partial_centroids c i (k * z.n_features + f))
        (partial_centroids c' i' (k * z.n_features + f))).run)
        ((addCount (partial_membership_cnt c i k) (partial_membership_cnt c' i' k)).run m)) m := by
    rw [accumulate, after_range]
    exact loop_congr fun k _ t => after_map _ _
  refine ⟨fun k row => ?_, fun k row f column => ?_, fun x outside outside' => ?_⟩
  · have summed : ∀ k' (m : Loc → Word F), pair (partial_membership_cnt c i k) (partial_membership_cnt c' i' k)
        (loop z.n_features (fun f => (addDouble (partial_centroids c i (k' * z.n_features + f))
          (partial_centroids c' i' (k' * z.n_features + f))).run) m) =
          pair (partial_membership_cnt c i k) (partial_membership_cnt c' i' k) m := fun k' m =>
      loop_still (pair _ _) fun f _ m => pair_frame _ (by simp [addDouble, Statement.assign])
        (by simp [addDouble, Statement.assign])
    have far : partial_membership_cnt c' i' k ≠ partial_membership_cnt c i k := counts_apart other
    rw [unrolled]
    refine congrArg Prod.fst (loop_once (pair (partial_membership_cnt c i k)
      (partial_membership_cnt c' i' k)) (g := fun w => (uint32 (w.1.toNat + w.2.toNat), w.2)) row
      (fun k' _ off m => (summed k' _).trans (pair_frame _ ?_ ?_)) fun m => (summed k _).trans ?_)
    · simp [addCount, Statement.assign, off.symm]
    · exact counts_apart other
    · simp [pair, addCount, Statement.assign, far]
  · have counted : ∀ k' (m : Loc → Word F), pair (partial_centroids c i (k * z.n_features + f))
        (partial_centroids c' i' (k * z.n_features + f))
        ((addCount (partial_membership_cnt c i k') (partial_membership_cnt c' i' k')).run m) =
          pair (partial_centroids c i (k * z.n_features + f))
            (partial_centroids c' i' (k * z.n_features + f)) m := fun k' m =>
      pair_frame _ (by simp [addCount, Statement.assign]) (by simp [addCount, Statement.assign])
    have elsewhere : ∀ k' f', f' < z.n_features → (k' ≠ k ∨ f' ≠ f) → ∀ m : Loc → Word F,
        pair (partial_centroids c i (k * z.n_features + f))
          (partial_centroids c' i' (k * z.n_features + f))
          ((addDouble (partial_centroids c i (k' * z.n_features + f'))
            (partial_centroids c' i' (k' * z.n_features + f'))).run m) =
          pair (partial_centroids c i (k * z.n_features + f))
            (partial_centroids c' i' (k * z.n_features + f)) m := by
      intro k' f' column' off m
      refine pair_frame _ (fun same => ?_) (sums_apart other)
      obtain ⟨rfl, rfl⟩ := grid_inj column column' (by injection same)
      exact off.elim (· rfl) (· rfl)
    have far : partial_centroids c' i' (k * z.n_features + f) ≠
        partial_centroids c i (k * z.n_features + f) := sums_apart other
    rw [unrolled]
    refine congrArg Prod.fst (loop_once (pair (partial_centroids c i (k * z.n_features + f))
      (partial_centroids c' i' (k * z.n_features + f)))
      (g := fun w => (double (w.1.toDouble + w.2.toDouble), w.2)) row (fun k' _ off m => ?_)
      fun m => ?_)
    · exact (loop_still (pair _ _) fun f' column' m =>
        elsewhere k' f' column' (.inl off) m).trans (counted k' m)
    · rw [← counted k m]
      refine loop_once (pair _ _) (g := fun w => (double (w.1.toDouble + w.2.toDouble), w.2)) column
        (fun f' column' off m => elsewhere k f' column' (.inr off) m) fun m => ?_
      simp [pair, addDouble, Statement.assign, far]
  · exact Within.frame (R := fun _ => True)
      (W := fun x => (∃ k, x = partial_membership_cnt c i k) ∨ ∃ e, x = partial_centroids c i e)
      (by simp [accumulate, addCount, addDouble, Statement.assign])
      (by simpa using ⟨outside, outside'⟩)

/-- **A reduction**: what a core has and what it adds, one core after the other. -/
theorem after_reduction {c' i' : Nat → Nat} {a : Nat → Nat → Nat} {b : Nat → Nat → Nat → F}
    (others : ∀ q < n, ¬(c = c' q ∧ 0 = i' q))
    (counts : ∀ k < z.n_clusters, m (partial_membership_cnt c 0 k) = uint32 (a 0 k))
    (counts' : ∀ q < n, ∀ k < z.n_clusters,
      m (partial_membership_cnt (c' q) (i' q) k) = uint32 (a (q + 1) k))
    (sums : ∀ k < z.n_clusters, ∀ f < z.n_features,
      m (partial_centroids c 0 (k * z.n_features + f)) = double (b 0 k f))
    (sums' : ∀ q < n, ∀ k < z.n_clusters, ∀ f < z.n_features,
      m (partial_centroids (c' q) (i' q) (k * z.n_features + f)) = double (b (q + 1) k f)) :
    let m' := after Statement.run
      ((List.range n).flatMap fun q => accumulate z c 0 (c' q) (i' q)) m
    (∀ k < z.n_clusters, m' (partial_membership_cnt c 0 k) =
      uint32 (∑ q ∈ Finset.range (n + 1), a q k)) ∧
    ∀ k < z.n_clusters, ∀ f < z.n_features, m' (partial_centroids c 0 (k * z.n_features + f)) =
      double (∑ q ∈ Finset.range (n + 1), b q k f) := by
  intro m'
  have unrolled : m' = loop n (fun q => after Statement.run (accumulate z c 0 (c' q) (i' q))) m :=
    after_range _ _
  rw [unrolled]
  let Inv (n : Nat) (m₁ : Loc → Word F) : Prop :=
      (∀ k < z.n_clusters, m₁ (partial_membership_cnt c 0 k) =
        uint32 (∑ q ∈ Finset.range (n + 1), a q k)) ∧
      (∀ k < z.n_clusters, ∀ f < z.n_features, m₁ (partial_centroids c 0 (k * z.n_features + f)) =
        double (∑ q ∈ Finset.range (n + 1), b q k f)) ∧
      ∀ x, (∀ k, x ≠ partial_membership_cnt c 0 k) → (∀ e, x ≠ partial_centroids c 0 e) → m₁ x = m x
  have step : ∀ q < n, ∀ m', Inv q m' →
      Inv (q + 1) (after Statement.run (accumulate z c 0 (c' q) (i' q)) m') := by
    rintro q below m' ⟨counted, summed, kept⟩
    obtain ⟨counted', summed', kept'⟩ := after_accumulate (z := z) (m := m') (others q below)
    refine ⟨fun k row => ?_, fun k row f column => ?_, fun x outside outside' =>
      (kept' x outside outside').trans (kept x outside outside')⟩
    · rw [counted' k row, counted k row, kept _ (fun _ => counts_apart (others q below)) (by simp),
        counts' q below k row,
        Finset.sum_range_succ _ (q + 1)]
      rfl
    · rw [summed' k row f column, summed k row f column, 
        kept _ (by simp) (fun _ => sums_apart (others q below)), sums' q below k row f column, Finset.sum_range_succ _ (q + 1)]
      rfl
  have results : Inv n _ := loop_invariant Inv
    ⟨by simpa using counts, by simpa using sums, fun _ _ _ => rfl⟩ step
  exact ⟨results.1, results.2.1⟩

/-- The inter-cluster reduction and the normalization. -/
theorem after_combine {a : Nat → Nat → Nat} {b : Nat → Nat → Nat → F}
    (some_cluster : 0 < z.snrt_cluster_num)
    (counts : ∀ q < z.snrt_cluster_num, ∀ k < z.n_clusters,
      m (partial_membership_cnt q 0 k) = uint32 (a q k))
    (sums : ∀ q < z.snrt_cluster_num, ∀ k < z.n_clusters, ∀ f < z.n_features,
      m (partial_centroids q 0 (k * z.n_features + f)) = double (b q k f)) :
    ∀ k < z.n_clusters, ∀ f < z.n_features,
      after Statement.run (combineCode z) m (partial_centroids 0 0 (k * z.n_features + f)) =
        double ((∑ q ∈ Finset.range z.snrt_cluster_num, b q k f) /
          ((∑ q ∈ Finset.range z.snrt_cluster_num, a q k : Nat) : F)) := by
  intro k row f column
  obtain ⟨counted, summed⟩ := after_reduction (n := z.snrt_cluster_num - 1) (c := 0) (m := m)
    (fun q _ same => Nat.succ_ne_zero q same.1.symm) (counts 0 some_cluster)
    (fun q below => counts (q + 1) (by omega)) (sums 0 some_cluster)
    (fun q below => sums (q + 1) (by omega))
  rw [Nat.sub_add_cancel some_cluster] at counted summed
  rw [combineCode, after_append, after_grid]
  generalize after Statement.run ((List.range (z.snrt_cluster_num - 1)).flatMap fun q =>
    accumulate z 0 0 (q + 1) 0) m = m' at counted summed
  have others : ∀ k' < z.n_clusters, ∀ f' < z.n_features, (k' ≠ k ∨ f' ≠ f) → ∀ m : Loc → Word F,
      pair (partial_centroids 0 0 (k * z.n_features + f)) (partial_membership_cnt 0 0 k)
        ((normalize z k' f').run m) =
      pair (partial_centroids 0 0 (k * z.n_features + f)) (partial_membership_cnt 0 0 k) m := by
    intro k' _ f' column' off m
    refine pair_frame _ (fun same => ?_) (by simp [normalize, Statement.assign])
    obtain ⟨rfl, rfl⟩ := grid_inj column column' (by injection same)
    exact off.elim (· rfl) (· rfl)
  have here : ∀ m : Loc → Word F,
      pair (partial_centroids 0 0 (k * z.n_features + f)) (partial_membership_cnt 0 0 k)
        ((normalize z k f).run m) =
      (double ((m (partial_centroids 0 0 (k * z.n_features + f))).toDouble /
        (m (partial_membership_cnt 0 0 k)).toNat), m (partial_membership_cnt 0 0 k)) := fun m => by
    simp [pair, normalize, Statement.assign]
  have value := congrArg Prod.fst (loop_grid (s := m') (pair _ _)
    (g := fun w => (double (w.1.toDouble / w.2.toNat), w.2)) row column others here)
  simp only [pair] at value
  rw [counted k row, summed k row f column] at value
  exact value

end Sequential

/-! ## The phases -/

section Phases

open Loc Word Statement

variable {F : Type} [Field F] [LinearOrder F] {z : Sizes} {c i t s k n : Nat} {m : Loc → Word F}
  {p : Phase} {x : Loc} {overrun : Loc → Option (Word F)} {X : Nat → Nat → F} {Y : Nat → Nat → F}
  {A : Nat → Nat}

theorem agent_lt (cluster : c < z.snrt_cluster_num) (core : i < z.cores) :
    c * z.cores + i < (kmeans_job z overrun).agents := by
  have next := Nat.mul_le_mul_right z.cores (show c + 1 ≤ z.snrt_cluster_num from cluster)
  rw [Nat.succ_mul] at next
  exact Nat.lt_of_lt_of_le (Nat.add_lt_add_left core _) next

theorem code_compute (core : i < z.snrt_cluster_compute_core_num) :
    code z overrun p (c * z.cores + i) = computeCode z c i p := by
  have inside : i < z.cores := Nat.lt_succ_of_lt core
  rw [code, grid_mod inside, grid_div inside, if_neg core.ne]

theorem code_mover :
    code z overrun p (c * z.cores + z.snrt_cluster_compute_core_num) = moverCode z overrun c p := by
  have inside : z.snrt_cluster_compute_core_num < z.cores := Nat.lt_succ_self _
  rw [code, grid_mod inside, grid_div inside, if_pos rfl]

abbrev phase (z : Sizes) (overrun : Loc → Option (Word F)) (p : Phase) :
    (Loc → Word F) → Loc → Word F :=
  (kmeans_job z overrun).phase semantics p

/-- What a core writes in a phase is its own code's doing. -/
theorem phase_own (planned : Planned z p) (cluster : c < z.snrt_cluster_num) (core : i < z.cores)
    (mine : Written z c i p x) :
    phase z overrun p m x = after Statement.run (code z overrun p (c * z.cores + i)) m x := by
  refine raceFree.phase_own (List.mem_of_getElem? (schedule_position planned))
    (agent_lt cluster core) m fun j _ apart st member writes => apart ?_
  have yours := (code_within st member).2 x writes
  obtain ⟨same, same'⟩ := written_unique yours (.inr mine)
  rw [← Nat.div_add_mod j z.cores, same, same', Nat.mul_comm]

theorem phase_kept (kept : ∀ c i, ¬Written z c i p x) : phase z overrun p m x = m x :=
  (kmeans_job z overrun).phase_frame m fun _ _ st member writes =>
    kept _ _ ((code_within st member).2 x writes)

/-- The clusters have their samples. -/
def Loaded (z : Sizes) (X : Nat → Nat → F) (m : Loc → Word F) : Prop :=
  ∀ c < z.snrt_cluster_num, ∀ s < z.n_samples_per_cluster, ∀ f < z.n_features,
    m (local_samples c (s * z.n_features + f)) = double (X (c * z.n_samples_per_cluster + s) f)

/-- The centroids of iteration `t` are `Y`. -/
def Current (z : Sizes) (t : Nat) (Y : Nat → Nat → F) (m : Loc → Word F) : Prop :=
  ∀ c < z.snrt_cluster_num, ∀ k < z.n_clusters, ∀ f < z.n_features,
    m (current t c (k * z.n_features + f)) = double (Y k f)

/-- Every sample is assigned as `A` says. -/
def Assigned (z : Sizes) (A : Nat → Nat) (m : Loc → Word F) : Prop :=
  ∀ c < z.snrt_cluster_num, ∀ s < z.n_samples_per_cluster,
    m (membership c s) = uint32 (A (c * z.n_samples_per_cluster + s))

/-- The first `n` cores of every cluster have counted stretches of `w` samples. -/
def Counted (z : Sizes) (n w : Nat) (A : Nat → Nat) (m : Loc → Word F) : Prop :=
  ∀ c < z.snrt_cluster_num, ∀ i < n, ∀ k < z.n_clusters, m (partial_membership_cnt c i k) =
    uint32 (tally (fun _ => 1) A k (c * z.n_samples_per_cluster + i * w) w)

/-- And summed them up. -/
def Summed (z : Sizes) (n w : Nat) (X : Nat → Nat → F) (A : Nat → Nat) (m : Loc → Word F) : Prop :=
  ∀ c < z.snrt_cluster_num, ∀ i < n, ∀ k < z.n_clusters, ∀ f < z.n_features,
    m (partial_centroids c i (k * z.n_features + f)) =
      double (tally (X · f) A k (c * z.n_samples_per_cluster + i * w) w)

variable (overrun)

/-- The transfers in. -/
theorem load_leaves
    (samples : ∀ s < z.snrt_cluster_num * z.n_samples_per_cluster, ∀ f < z.n_features,
      m (samples (s * z.n_features + f)) = double (X s f))
    (centroids : ∀ k < z.n_clusters, ∀ f < z.n_features,
      m (centroids (k * z.n_features + f)) = double (Y k f)) :
    Loaded z X (phase z overrun .load m) ∧ Current z 0 Y (phase z overrun .load m) := by
  refine ⟨fun c cluster s row f column => ?_, fun c cluster k row f column => ?_⟩
  · have planned : Planned z .load := trivial
    have mine : Written z c z.snrt_cluster_compute_core_num .load
        (local_samples c (s * z.n_features + f)) := ⟨rfl, rfl⟩
    rw [phase_own planned cluster (Nat.lt_succ_self _) mine, code_mover]
    simp only [moverCode, after_append]
    rw [Within.frame (R := fun _ => True) (W := fun x => ∀ k, x ≠ local_samples c k)
      (by simp [overrunCode, Statement.assign]) (by simp),
      Within.frame (R := fun _ => True) (W := fun x => ∀ k, x ≠ local_samples c k)
      (by simp [copy, Statement.assign]) (by simp),
      after_copies (by simp) (by simp) (grid_lt row column), ← samples _ (grid_lt cluster row) f column,
      Nat.add_mul, Nat.mul_assoc, Nat.add_assoc]
  · have planned : Planned z .load := trivial
    have mine : Written z c z.snrt_cluster_compute_core_num .load
        (local_centroids c (k * z.n_features + f)) := ⟨rfl, rfl⟩
    rw [current, if_pos rfl, phase_own planned cluster (Nat.lt_succ_self _) mine, code_mover]
    simp only [moverCode, after_append]
    rw [Within.frame (R := fun _ => True) (W := fun x => ∀ k, x ≠ local_centroids c k)
      (by simp [overrunCode, Statement.assign]) (by simp),
      after_copies (by simp) (by simp) (grid_lt row column),
      Within.frame (R := fun _ => True) (W := fun x => ∃ c k, x = local_samples c k)
      (by simp [copy, Statement.assign]) (by simp), centroids k row f column]

theorem Loaded.kept (loaded : Loaded z X m) (kept : ∀ c i c' k, ¬Written z c i p (local_samples c' k)) :
    Loaded z X (phase z overrun p m) := fun c cluster s row f column =>
  (phase_kept fun c' i => kept c' i c _).trans (loaded c cluster s row f column)

theorem Counted.kept {w : Nat} (counted : Counted z n w A m)
    (kept : ∀ c i c' i' k, ¬Written z c i p (partial_membership_cnt c' i' k)) :
    Counted z n w A (phase z overrun p m) := fun c cluster i core k row =>
  (phase_kept fun c' i' => kept c' i' c i k).trans (counted c cluster i core k row)

/-- **The assignment step.** -/
theorem assign_leaves (iteration : t < z.n_iter)
    (split : z.n_samples_per_cluster = z.snrt_cluster_compute_core_num * z.n_samples_per_core)
    (loaded : Loaded z X m) (current : Current z t Y m)
    (is : A = assignment z.n_clusters z.n_features X Y) :
    Loaded z X (phase z overrun (.assign t) m) ∧ Assigned z A (phase z overrun (.assign t) m) ∧
      Counted z z.snrt_cluster_compute_core_num z.n_samples_per_core A
        (phase z overrun (.assign t) m) := by
  have planned : Planned z (.assign t) := iteration
  have results : ∀ c < z.snrt_cluster_num, ∀ i < z.snrt_cluster_compute_core_num, _ ∧ _ :=
    fun c cluster i core => after_assign (m := m) (c := c) (i := i) (t := t) (v := Y)
      (u := fun s => X (c * z.n_samples_per_cluster + s)) rfl
      (fun s inside => loaded c cluster _ (by rw [split]; exact grid_lt core inside))
      (current c cluster)
  refine ⟨loaded.kept overrun fun _ _ _ _ => id, fun c cluster s inside => ?_, fun c cluster i core k row => ?_⟩
  · rw [split] at inside
    have some_sample : 0 < z.n_samples_per_core := Nat.pos_of_ne_zero fun none => by
      rw [none, Nat.mul_zero] at inside
      exact Nat.not_lt_zero s inside
    have core : s / z.n_samples_per_core < z.snrt_cluster_compute_core_num :=
      (Nat.div_lt_iff_lt_mul some_sample).mpr inside
    have mine : Written z c (s / z.n_samples_per_core) (.assign t) (membership c s) := ⟨rfl, rfl⟩
    have assigned := (results c cluster _ core).1 (s % z.n_samples_per_core)
      (Nat.mod_lt s some_sample)
    rw [Nat.mul_comm, Nat.div_add_mod] at assigned
    rw [phase_own planned cluster (Nat.lt_succ_of_lt core) mine, code_compute core, is]
    exact assigned
  · have mine : Written z c i (.assign t) (partial_membership_cnt c i k) := ⟨rfl, rfl⟩
    rw [phase_own planned cluster (Nat.lt_succ_of_lt core) mine, code_compute core, ← tally_shift, is]
    exact (results c cluster i core).2 k row

/-- **The update step.** -/
theorem update_leaves (iteration : t < z.n_iter)
    (split : z.n_samples_per_cluster = z.snrt_cluster_compute_core_num * z.n_samples_per_core)
    (loaded : Loaded z X m) (assigned : Assigned z A m) :
    Summed z z.snrt_cluster_compute_core_num z.n_samples_per_core X A
      (phase z overrun (.update t) m) := by
  intro c cluster i core k row f column
  have planned : Planned z (.update t) := iteration
  have mine : Written z c i (.update t) (partial_centroids c i (k * z.n_features + f)) := ⟨rfl, rfl⟩
  have block : ∀ s < z.n_samples_per_core,
      i * z.n_samples_per_core + s < z.n_samples_per_cluster := fun s inside => by
    rw [split]
    exact grid_lt core inside
  rw [phase_own planned cluster (Nat.lt_succ_of_lt core) mine, code_compute core, ← tally_shift]
  exact after_update (fun s => A (c * z.n_samples_per_cluster + s))
    (u := fun s => X (c * z.n_samples_per_cluster + s))
    (fun s inside => assigned c cluster _ (block s inside))
    (fun s inside => loaded c cluster _ (block s inside)) k row f column

/-- **The intra-cluster reduction.** -/
theorem reduce_leaves (iteration : t < z.n_iter)
    (some_core : 0 < z.snrt_cluster_compute_core_num)
    (split : z.n_samples_per_cluster = z.snrt_cluster_compute_core_num * z.n_samples_per_core)
    (counted : Counted z z.snrt_cluster_compute_core_num z.n_samples_per_core A m)
    (summed : Summed z z.snrt_cluster_compute_core_num z.n_samples_per_core X A m) :
    Counted z 1 z.n_samples_per_cluster A (phase z overrun (.reduce t) m) ∧
      Summed z 1 z.n_samples_per_cluster X A (phase z overrun (.reduce t) m) := by
  have planned : Planned z (.reduce t) := iteration
  have results : ∀ c < z.snrt_cluster_num,
      (∀ k < z.n_clusters, after Statement.run (reduceCode z c) m (partial_membership_cnt c 0 k) =
        uint32 (tally (fun _ => 1) A k (c * z.n_samples_per_cluster) z.n_samples_per_cluster)) ∧
      ∀ k < z.n_clusters, ∀ f < z.n_features,
        after Statement.run (reduceCode z c) m (partial_centroids c 0 (k * z.n_features + f)) =
          double (tally (X · f) A k (c * z.n_samples_per_cluster) z.n_samples_per_cluster) := by
    intro c cluster
    have sums := after_reduction (m := m) (n := z.snrt_cluster_compute_core_num - 1) (c := c)
      (a := fun i k => tally (fun _ => 1) A k
        (c * z.n_samples_per_cluster + i * z.n_samples_per_core) z.n_samples_per_core)
      (b := fun i k f => tally (X · f) A k
        (c * z.n_samples_per_cluster + i * z.n_samples_per_core) z.n_samples_per_core)
      (fun q _ same => Nat.succ_ne_zero q same.2.symm) (counted c cluster 0 some_core)
      (fun q below => counted c cluster (q + 1) (by omega)) (summed c cluster 0 some_core)
      (fun q below => summed c cluster (q + 1) (by omega))
    simp only [Nat.sub_add_cancel some_core, ← tally_blocks, ← split] at sums
    exact sums
  refine ⟨fun c cluster i first k row => ?_, fun c cluster i first k row f column => ?_⟩
  · obtain rfl := Nat.lt_one_iff.mp first
    have mine : Written z c 0 (.reduce t) (partial_membership_cnt c 0 k) := ⟨rfl, rfl, rfl⟩
    rw [phase_own planned cluster (Nat.succ_pos _) mine, code_compute some_core, Nat.zero_mul,
      Nat.add_zero]
    exact (results c cluster).1 k row
  · obtain rfl := Nat.lt_one_iff.mp first
    have mine : Written z c 0 (.reduce t) (partial_centroids c 0 (k * z.n_features + f)) :=
      ⟨rfl, rfl, rfl⟩
    rw [phase_own planned cluster (Nat.succ_pos _) mine, code_compute some_core, Nat.zero_mul,
      Nat.add_zero]
    exact (results c cluster).2 k row f column

/-- **The inter-cluster reduction and the division** leave a round of Lloyd's algorithm. -/
theorem combine_leaves (iteration : t < z.n_iter)
    (some_cluster : 0 < z.snrt_cluster_num) (some_core : 0 < z.snrt_cluster_compute_core_num)
    (split : z.n_samples = z.snrt_cluster_num * z.n_samples_per_cluster)
    (counted : Counted z 1 z.n_samples_per_cluster A m)
    (summed : Summed z 1 z.n_samples_per_cluster X A m)
    (is : A = assignment z.n_clusters z.n_features X Y) :
    Current z (t + 1) (round z.n_samples z.n_clusters z.n_features X Y)
      (phase z overrun (.combine t) m) := by
  intro c _ k row f column
  have planned : Planned z (.combine t) := iteration
  have mine : Written z 0 0 (.combine t) (partial_centroids 0 0 (k * z.n_features + f)) :=
    ⟨rfl, rfl, rfl, rfl⟩
  have combined := after_combine (m := m)
    (a := fun c k => tally (fun _ => 1) A k
      (c * z.n_samples_per_cluster + 0 * z.n_samples_per_cluster) z.n_samples_per_cluster)
    (b := fun c k f => tally (X · f) A k
      (c * z.n_samples_per_cluster + 0 * z.n_samples_per_cluster) z.n_samples_per_cluster)
    some_cluster (fun c cluster => counted c cluster 0 Nat.one_pos)
    (fun c cluster => summed c cluster 0 Nat.one_pos) k row f column
  have blocks : ∀ {M : Type} [AddCommMonoid M] (g : Nat → M),
      ∑ c ∈ Finset.range z.snrt_cluster_num, tally g A k
        (c * z.n_samples_per_cluster + 0 * z.n_samples_per_cluster) z.n_samples_per_cluster =
      tally g A k 0 z.n_samples := fun g => by
    rw [split, tally_blocks]
    simp only [Nat.zero_mul, Nat.add_zero, Nat.zero_add]
  rw [blocks, blocks] at combined
  rw [current, if_neg (Nat.succ_ne_zero t), phase_own planned some_cluster (Nat.succ_pos _) mine,
    code_compute some_core, Lloyd.round_eq, ← is]
  exact combined

end Phases

/-! ## The iterations -/

section Iterations

open Loc Word Statement

variable {F : Type} [Field F] [LinearOrder F] {z : Sizes} {k n t : Nat} {m : Loc → Word F}
  (overrun : Loc → Option (Word F)) {X Y : Nat → Nat → F}

/-- `n` rounds of Lloyd's algorithm. -/
def lloyd (z : Sizes) (X Y : Nat → Nat → F) (n : Nat) : Nat → Nat → F :=
  (round z.n_samples z.n_clusters z.n_features X)^[n] Y

/-- The samples are dealt out whole. -/
structure Dealt (z : Sizes) : Prop where
  some_cluster : 0 < z.snrt_cluster_num
  some_core : 0 < z.snrt_cluster_compute_core_num
  whole : z.snrt_cluster_num * z.snrt_cluster_compute_core_num ∣ z.n_samples

theorem Dealt.clusters (dealt : Dealt z) :
    z.n_samples = z.snrt_cluster_num * z.n_samples_per_cluster :=
  (Nat.mul_div_cancel' ((Nat.dvd_mul_right _ _).trans dealt.whole)).symm

theorem Dealt.cores (dealt : Dealt z) :
    z.n_samples_per_cluster = z.snrt_cluster_compute_core_num * z.n_samples_per_core := by
  refine (Nat.mul_div_cancel' ?_).symm
  exact Nat.dvd_of_mul_dvd_mul_left dealt.some_cluster (dealt.clusters ▸ dealt.whole)

/-- The samples and the initial centroids in memory. -/
structure Given (z : Sizes) (X Y : Nat → Nat → F) (m : Loc → Word F) : Prop where
  samples : ∀ s < z.n_samples, ∀ f < z.n_features, m (samples (s * z.n_features + f)) = double (X s f)
  centroids : ∀ k < z.n_clusters, ∀ f < z.n_features,
    m (centroids (k * z.n_features + f)) = double (Y k f)

abbrev reference (z : Sizes) (overrun : Loc → Option (Word F)) (m : Loc → Word F) (k : Nat) :
    Loc → Word F :=
  (kmeans_job z overrun).reference semantics m k

theorem reference_succ {p : Phase} (planned : Planned z p) :
    reference z overrun m (position z p + 1) =
      phase z overrun p (reference z overrun m (position z p)) :=
  Program.reference_succ (schedule_position planned)

/-- One iteration. -/
theorem iteration_leaves (dealt : Dealt z) (iteration : t < z.n_iter)
    (before : Loaded z X (reference z overrun m (4 * t + 1)) ∧
      Current z t Y (reference z overrun m (4 * t + 1))) :
    Loaded z X (reference z overrun m (4 * (t + 1) + 1)) ∧
      Current z (t + 1) (round z.n_samples z.n_clusters z.n_features X Y)
        (reference z overrun m (4 * (t + 1) + 1)) := by
  have assign : reference z overrun m (4 * t + 2) = _ := reference_succ _ (p := .assign t) iteration
  have update : reference z overrun m (4 * t + 3) = _ := reference_succ _ (p := .update t) iteration
  have reduce : reference z overrun m (4 * t + 4) = _ := reference_succ _ (p := .reduce t) iteration
  have combine : reference z overrun m (4 * t + 5) = _ := reference_succ _ (p := .combine t) iteration
  obtain ⟨loaded, assigned, counted⟩ := assign_leaves overrun iteration dealt.cores
    before.1 before.2 rfl
  have summed := update_leaves overrun iteration dealt.cores loaded assigned
  have loaded := loaded.kept overrun (p := .update t) fun _ _ _ _ => id
  have counted := counted.kept overrun (p := .update t) fun _ _ _ _ _ => id
  obtain ⟨counted, summed⟩ := reduce_leaves overrun iteration dealt.some_core
    dealt.cores counted summed
  have loaded := loaded.kept overrun (p := .reduce t) fun _ _ _ _ => id
  have current := combine_leaves overrun iteration dealt.some_cluster dealt.some_core
    dealt.clusters counted summed rfl
  have loaded := loaded.kept overrun (p := .combine t) fun _ _ _ _ => id
  rw [show 4 * (t + 1) + 1 = 4 * t + 5 from rfl, combine, position, reduce, position, update, position,
    assign, position]
  exact ⟨loaded, current⟩

theorem iterations_leave (dealt : Dealt z) (given : Given z X Y m) (within : n ≤ z.n_iter) :
    Loaded z X (reference z overrun m (4 * n + 1)) ∧
      Current z n (lloyd z X Y n) (reference z overrun m (4 * n + 1)) := by
  induction n with
  | zero =>
    have load : reference z overrun m 1 = _ := reference_succ _ (p := .load) trivial
    rw [Nat.mul_zero, Nat.zero_add, load]
    exact load_leaves overrun (dealt.clusters ▸ given.samples) given.centroids
  | succ n ih =>
    have next := iteration_leaves _ dealt within (ih (Nat.le_of_succ_le within))
    rwa [lloyd, Function.iterate_succ_apply']

/-- The transfer out. -/
theorem store_leaves {Z : Nat → Nat → F} (some_cluster : 0 < z.snrt_cluster_num)
    (later : t ≠ 0) (current : Current z t Z m) :
    ∀ k < z.n_clusters, ∀ f < z.n_features,
      phase z overrun .store m (centroids (k * z.n_features + f)) = double (Z k f) := by
  intro k row f column
  have planned : Planned z .store := trivial
  have mine : Written z 0 z.snrt_cluster_compute_core_num .store
      (centroids (k * z.n_features + f)) := ⟨rfl, rfl⟩
  rw [phase_own planned some_cluster (Nat.lt_succ_self _) mine, code_mover, moverCode, if_pos rfl,
    after_copies (by simp) (by simp) (grid_lt row column)]
  have value := current 0 some_cluster k row f column
  rwa [Kmeans.current, if_neg later] at value

/-- Every transfer stays within its buffer. -/
def TransfersFit (z : Sizes) : Prop := ∀ tr ∈ transfers z, tr.size ≤ tr.allocated

theorem transfersFit_iff : TransfersFit z ↔ z.n_clusters * z.n_features = 0 := by
  simp only [TransfersFit, transfers, List.forall_mem_cons, le_refl, true_and, and_true,
    List.not_mem_nil, false_imp_iff, implies_true]
  omega

/-- Every core is through. -/
def Finished (z : Sizes) (s : State Loc (Word F)) : Prop :=
  ∀ a < (kmeans_job z overrun).agents, (kmeans_job z overrun).schedule.length ≤ (s.place a).1

instance (s : State Loc (Word F)) : Decidable (Finished overrun z s) := by
  unfold Finished
  infer_instance

/-- **The job does Lloyd's iterations** in the runs in which core 0 of cluster 0 clears no
centroids that another core still compares with.  Its transfers never fit. -/
theorem kmeans_job_lloyd :
    (TransfersFit z ↔ z.n_clusters * z.n_features = 0) ∧
    (Dealt z → 0 < z.n_iter → Given z X Y m → ∀ s,
      ((kmeans_job z overrun).machine semantics).Reaches
        ((kmeans_job z overrun).Awaits (assignedFirst z)) (Program.start m) s →
      Finished overrun z s → ∀ k < z.n_clusters, ∀ f < z.n_features,
        s.memory (centroids (k * z.n_features + f)) = double (lloyd z X Y z.n_iter k f)) := by
  refine ⟨transfersFit_iff, fun dealt some_iter given s reached finished k row f column => ?_⟩
  have agents : 0 < (kmeans_job z overrun).agents :=
    Nat.mul_pos dealt.some_cluster (Nat.succ_pos _)
  have memory := Program.memory_done raceFree (guarded some_iter) reached agents finished
  have length : (kmeans_job z overrun).schedule.length = 4 * z.n_iter + 1 + 1 := schedule_length
  have store : reference z overrun m (4 * z.n_iter + 1 + 1) = _ :=
    reference_succ _ (p := .store) trivial
  rw [memory, length]
  change reference z overrun m _ _ = _
  rw [store]
  exact store_leaves overrun dealt.some_cluster some_iter.ne'
    (iterations_leave overrun dealt given le_rfl).2 k row f column

end Iterations

/-! ## A run in which the centroids are cleared too early -/

section Runs

open Loc Word Statement

/-- Two samples and two centroids on two cores, for two iterations. -/
def twoSamples : Sizes := ⟨2, 1, 2, 2, 1, 2⟩

/-- The samples are 1 and 4, the initial centroids 0 and 5. -/
def given : Loc → Word ℚ
  | .samples 0 => double 1
  | .samples 1 => double 4
  | .centroids 0 => double 0
  | .centroids 1 => double 5
  | _ => inf

def samples (s _ : Nat) : ℚ := if s = 0 then 1 else 4

def initial (k _ : Nat) : ℚ := if k = 0 then 0 else 5

abbrev twoSamples_job : Program Phase (Statement Loc (Word ℚ)) := kmeans_job twoSamples fun _ => none

/-- Cores 0 and 1 and the data mover, 2, up to the second iteration, which each core starts with
its assignment or core 0 with assignment and clearing. -/
def schedules (second : List Nat) : List Nat :=
  let steps (a n : Nat) := List.replicate n a
  let all := [0, 1, 2]
  steps 2 14 ++ all ++
  steps 0 14 ++ steps 1 14 ++ [2] ++ steps 0 3 ++ steps 1 3 ++ all ++ steps 0 4 ++ all ++
    steps 0 2 ++ all ++
  second ++ [2] ++ [0] ++ steps 1 3 ++ all ++ steps 0 4 ++ all ++ steps 0 2 ++ all ++
  steps 2 2 ++ all

/-- Core 0 clears the centroids before core 1 compares with them. -/
def overtaking : List Nat := schedules (List.replicate 16 0 ++ List.replicate 14 1)

def inOrder : List Nat := schedules (List.replicate 13 0 ++ List.replicate 14 1 ++ [0, 0, 0])

/-- **Neither half of the job's contract holds**: the transfer of the centroids overruns its
buffer, and a run ends with other centroids than Lloyd's. -/
theorem kmeans_job_overtaken :
    Dealt twoSamples ∧ ¬TransfersFit twoSamples ∧ Given twoSamples samples initial given ∧
    ∃ s, (twoSamples_job.machine semantics).Reachable (Program.start given) s ∧
      Finished (fun _ => none) twoSamples s ∧
      s.memory (centroids 0) ≠ double (lloyd twoSamples samples initial 2 0 0) := by
  refine ⟨⟨by decide, by decide, by decide⟩, ?_, ⟨by decide, by decide⟩, ?_⟩
  · rw [transfersFit_iff]
    decide
  · have ran : ((twoSamples_job.machine semantics).run (Program.start given) overtaking).any
        (fun s => decide (Finished (fun _ => none) twoSamples s ∧
          s.memory (centroids 0) ≠ double (lloyd twoSamples samples initial 2 0 0))) = true := by
      decide +kernel
    obtain ⟨s, ran, holds⟩ := (Option.any_eq_true _ _).mp ran
    exact ⟨s, Interleaving.reachable_run _ overtaking ran, of_decide_eq_true holds⟩

/-- Where core 0 waits the job does Lloyd's iterations. -/
theorem kmeans_job_lloyd_inOrder : ∃ s : State Loc (Word ℚ),
    (twoSamples_job.machine semantics).Reachable (Program.start given) s ∧
      s.memory (centroids 0) = double (lloyd twoSamples samples initial 2 0 0) := by
  have ran : ((twoSamples_job.machine semantics).run (Program.start given) inOrder).any
      (fun s => decide (Finished (fun _ => none) twoSamples s)) = true := by
    decide +kernel
  obtain ⟨s, ran, holds⟩ := (Option.any_eq_true _ _).mp ran
  have reached : (twoSamples_job.machine semantics).Reaches
      (twoSamples_job.Awaits (assignedFirst twoSamples)) (Program.start given) s :=
    Interleaving.reaches_run _ inOrder (by decide +kernel) ran
  exact ⟨s, Interleaving.reachable_run _ inOrder ran,
    (kmeans_job_lloyd (fun _ => none)).2 ⟨by decide, by decide, by decide⟩ (by decide)
      ⟨by decide, by decide⟩ s reached (of_decide_eq_true holds) 0 (by decide) 0 (by decide)⟩

end Runs

end SnitchCluster.Kernels.Kmeans
