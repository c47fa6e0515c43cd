import Laurus.Vector.Helpers.ClusterLabels
import Mathlib.Analysis.Real.Sqrt
import Mathlib.Tactic.Linarith
import Mathlib.Tactic.LinearCombination

/-!
# Token pooling clusters soundly

With any update that never brings a merged cluster nearer than its parts were,
the walk of nearest neighbours makes all its merges (`ChainEnds`), the lowest
of them leave as many clusters as they should (`LabelsOf`), and every row but
the protected ones goes into one mean (`Pools`).
-/

namespace Laurus

open Ward

variable {ρ σ α : Type} {update : α → α → α → ℕ → ℕ → ℕ → α} {n clusters : ℕ}

/-! ## Means -/

/-- The rows with a label, in order. -/
def rows_labelled (rows : List ρ) (labels : List ℕ) (label : ℕ) : List ρ :=
  ((rows.zip labels).filter fun entry => entry.2 = label).map Prod.fst

/-- The sum of rows, and their number. -/
def sum_rows (arithmetic : RowMean ρ σ) (rows : List ρ) : σ × ℕ :=
  (rows.foldl arithmetic.add arithmetic.zero, rows.length)

theorem rows_labelled_concat (rows : List ρ) (labels : List ℕ) (h : rows.length = labels.length)
    (row : ρ) (label label' : ℕ) :
    rows_labelled (rows ++ [row]) (labels ++ [label']) label =
      rows_labelled rows labels label ++ if label' = label then [row] else [] := by
  rw [rows_labelled, List.zip_append h, List.filter_append, List.map_append, rows_labelled]
  grind

/-- **Each cluster's sum is that of its rows.** -/
theorem add_rows_eq (arithmetic : RowMean ρ σ) (clusters : ℕ) (rows : List ρ) (labels : List ℕ)
    (h : rows.length = labels.length) :
    add_rows arithmetic clusters rows labels =
      (List.range clusters).map fun label =>
        sum_rows arithmetic (rows_labelled rows labels label) := by
  induction rows using List.reverseRecOn generalizing labels with
  | nil =>
      rw [add_rows, List.zip_nil_left, List.foldl_nil]
      simp [sum_rows, rows_labelled]
  | append_singleton rows row ih =>
      rcases List.eq_nil_or_concat' labels with rfl | ⟨labels, label, rfl⟩
      · simp at h
      · rw [List.length_append, List.length_append, List.length_singleton,
          List.length_singleton] at h
        have hlen : rows.length = labels.length := by omega
        have hrows := ih labels hlen
        rw [add_rows] at hrows
        rw [add_rows, List.zip_append hlen, List.foldl_append, hrows]
        refine List.ext_getElem (by simp) fun i hi hi' => ?_
        simp only [List.zip_cons_cons, List.zip_nil_left, List.foldl_cons, List.foldl_nil,
          List.getElem_modify, List.getElem_map, List.getElem_range]
        rw [rows_labelled_concat rows labels hlen]
        by_cases heq : label = i
        · rw [if_pos heq, if_pos heq, sum_rows, sum_rows, List.foldl_append, List.length_append]
          rfl
        grind

theorem perm_flatMap_filter {β : Type} (entries : List β) (key : β → ℕ) (clusters : ℕ) :
    ((List.range clusters).flatMap fun label =>
      entries.filter fun entry => key entry = label).Perm
      (entries.filter fun entry => key entry < clusters) := by
  induction clusters with
  | zero => simp
  | succ clusters ih =>
      rw [List.range_succ, List.flatMap_append, List.flatMap_singleton]
      have hsplit := List.filter_append_perm (fun entry => decide (key entry < clusters))
        (entries.filter fun entry => key entry < clusters + 1)
      rw [List.filter_filter, List.filter_filter] at hsplit
      have hbelow : (entries.filter fun entry => decide (key entry < clusters) &&
          decide (key entry < clusters + 1)) =
            entries.filter fun entry => key entry < clusters := by
        grind
      have hlast : (entries.filter fun entry => !decide (key entry < clusters) &&
          decide (key entry < clusters + 1)) =
            entries.filter fun entry => key entry = clusters := by
        grind
      rw [hbelow, hlast] at hsplit
      exact (ih.append_right _).trans hsplit

theorem perm_rows_labelled (rows : List ρ) (labels : List ℕ) (h : rows.length = labels.length)
    (hlabels : ∀ label ∈ labels, label < clusters) :
    ((List.range clusters).flatMap (rows_labelled rows labels)).Perm rows := by
  have hperm := (perm_flatMap_filter (rows.zip labels) Prod.snd clusters).map Prod.fst
  have hall : ((rows.zip labels).filter fun entry => decide (entry.2 < clusters)) =
      rows.zip labels :=
    List.filter_eq_self.2 fun entry hentry =>
      decide_eq_true (hlabels entry.2 (List.of_mem_zip hentry).2)
  rw [hall, List.map_flatMap, List.map_fst_zip h.le] at hperm
  exact hperm

/-! ## The results -/

/-- The walk of nearest neighbours over a matrix of distances: at every turn
its clusters hold rows and are all different, the next turn succeeds and
merges two clusters that hold rows if any, and the run ends with `n - 1`
merges. -/
structure ChainEnds [LinearOrder α] (update : α → α → α → ℕ → ℕ → ℕ → α) (n : ℕ)
    (distances : List α) : Prop where
  chain : ∀ w, Reached update n distances w →
    w.chain.Nodup ∧ ∀ c ∈ w.chain, Active w.size c
  turns : ∀ w, Reached update n distances w → w.merges.length < n - 1 →
    ∃ w', w.turn update n = some w' ∧ Grows w w'
  gone : ∀ w, Reached update n distances w →
    (∀ m ∈ w.merges, m.2.1 < m.2.2 ∧ m.2.2 < n) ∧
      w.merges.Pairwise fun m m' => m.2.1 ≠ m'.2.1 ∧ m.2.1 ≠ m'.2.2
  ends : ∃ w, (Ward.new n distances).run update n (4 * n) = some w ∧
    Reached update n distances w ∧ w.merges.length = n - 1

theorem chainEnds [LinearOrder α] [Inhabited α] (hupdate : Reducible update) {distances : List α}
    (hlen : distances.length = n * (n - 1) / 2) : ChainEnds update n distances where
  chain w hw := ⟨(hw.sound hupdate hlen).chain_nodup, (hw.sound hupdate hlen).chain_active⟩
  turns w hw hleft := by
    obtain ⟨w', hturn, -, hgrows, -⟩ := (hw.sound hupdate hlen).turn hupdate hleft
    exact ⟨w', hturn, hgrows⟩
  gone w hw := by
    have hsound := hw.sound hupdate hlen
    exact ⟨fun m hm => ⟨(hsound.merged m hm).1, (hsound.merged m hm).2.1⟩, hsound.gone⟩
  ends := run_new hupdate hlen

/-- **The labels of the lowest merges.** -/
theorem ward_labels_spec [LinearOrder α] [Inhabited α] (hupdate : Reducible update)
    {distances : List α} (hlen : distances.length = n * (n - 1) / 2) (hpos : 1 ≤ clusters)
    (hle : clusters ≤ n) :
    ∃ w labels, (Ward.new n distances).run update n (4 * n) = some w ∧
      ward_labels update n distances clusters = some labels ∧
      LabelsOf ((sort_merges w.merges).take (n - clusters)) n clusters labels := by
  obtain ⟨w, hrun, hreached, hmerges⟩ := run_new hupdate hlen
  obtain ⟨parents, hfold, happlied, hcard⟩ :=
    card_roots_lowest (hreached.sound hupdate hlen) hmerges hpos hle
  obtain ⟨l, hlabel, hlabels⟩ := labelsOf_foldlM happlied hcard
  refine ⟨w, l.labels, hrun, ?_, hlabels⟩
  simp only [ward_labels, hrun, hfold, hlabel, Option.bind_eq_bind, Option.bind_some]
  rfl

/-- Pooled rows: the protected ones first, then a mean for each label, every
other row in the mean of one. -/
structure Pools (arithmetic : RowMean ρ σ) (rows : List ρ) (factor : ℕ) (labels : List ℕ)
    (pooled : List ρ) : Prop where
  rows_eq : pooled = rows.take PROTECTED_ROWS ++
    (List.range (pooled_count rows.length factor - PROTECTED_ROWS)).map fun label =>
      let sum := sum_rows arithmetic (rows_labelled (rows.drop PROTECTED_ROWS) labels label)
      arithmetic.mean sum.1 sum.2
  length_eq : pooled.length = pooled_count rows.length factor
  once : ((List.range (pooled_count rows.length factor - PROTECTED_ROWS)).flatMap
    (rows_labelled (rows.drop PROTECTED_ROWS) labels)).Perm (rows.drop PROTECTED_ROWS)
  nonempty : ∀ label < pooled_count rows.length factor - PROTECTED_ROWS,
    rows_labelled (rows.drop PROTECTED_ROWS) labels label ≠ []

/-- What pooling returns: nothing when all rows are kept, otherwise the rows
pooled by the labels of the lowest merges. -/
def Pooling [LinearOrder α] (arithmetic : RowMean ρ σ) (distance : ρ → ρ → α)
    (update : α → α → α → ℕ → ℕ → ℕ → α) (rows : List ρ) (factor : ℕ) : Prop :=
  (pooled_count rows.length factor = rows.length ∧
    pool arithmetic distance update rows factor = some none) ∨
  (pooled_count rows.length factor < rows.length ∧
    ∃ labels pooled, pool arithmetic distance update rows factor = some (some pooled) ∧
      ward_labels update (rows.length - PROTECTED_ROWS)
        (condensed_distances distance (rows.drop PROTECTED_ROWS))
        (pooled_count rows.length factor - PROTECTED_ROWS) = some labels ∧
      Pools arithmetic rows factor labels pooled)

/-- Fewer rows are kept only of two or more: the protected one and the clusters. -/
theorem pooled_count_cases (rows factor : ℕ) :
    pooled_count rows factor = rows ∨
      (2 ≤ rows ∧ pooled_count rows factor = PROTECTED_ROWS + cluster_count (rows - 1) factor ∧
        1 ≤ cluster_count (rows - 1) factor ∧ cluster_count (rows - 1) factor < rows - 1) := by
  have hpos : ∀ rest, 1 ≤ cluster_count rest factor := fun rest => le_max_right _ _
  rw [pooled_count, PROTECTED_ROWS]
  grind

theorem pooling [LinearOrder α] [Inhabited α] (hupdate : Reducible update)
    (arithmetic : RowMean ρ σ) (distance : ρ → ρ → α) (rows : List ρ) (factor : ℕ) :
    Pooling arithmetic distance update rows factor := by
  rcases pooled_count_cases rows.length factor with hkeep | ⟨htwo, hcount, hpos, hless⟩
  · exact Or.inl ⟨hkeep, by rw [pool, if_pos hkeep]⟩
  · right
    have hmin : min rows.length PROTECTED_ROWS = PROTECTED_ROWS := by
      rw [PROTECTED_ROWS]
      omega
    have hclusters : pooled_count rows.length factor - PROTECTED_ROWS =
        cluster_count (rows.length - 1) factor := by
      rw [hcount, Nat.add_sub_cancel_left]
    have hrest : (rows.drop PROTECTED_ROWS).length = rows.length - 1 := List.length_drop
    have hlen := length_condensed_distances distance (rows.drop PROTECTED_ROWS)
    obtain ⟨w, labels, -, hlabels, hlabelsOf⟩ :=
      ward_labels_spec hupdate hlen hpos (by rw [hrest]; exact hless.le)
    rw [hrest] at hlabels hlabelsOf
    have hsame : (rows.drop PROTECTED_ROWS).length = labels.length := by
      rw [hrest, hlabelsOf.length_eq]
    refine ⟨by rw [hcount, PROTECTED_ROWS]; omega, labels, _, ?_, ?_, ⟨rfl, ?_, ?_, ?_⟩⟩
    · rw [pool, if_neg (by rw [hcount, PROTECTED_ROWS]; omega), hmin]
      dsimp only
      rw [hrest, show rows.length - PROTECTED_ROWS = rows.length - 1 from rfl, hlabels,
        Option.map_some, add_rows_eq arithmetic _ _ _ hsame, List.map_map, hclusters]
      rfl
    · rw [hclusters]
      exact hlabels
    · grind
    · grind [perm_rows_labelled, LabelsOf.mem]
    · intro label hlabel
      rw [hclusters] at hlabel
      obtain ⟨i, hi⟩ := List.mem_iff_getElem?.1 ((hlabelsOf.mem label).2 hlabel)
      obtain ⟨hlt, rfl⟩ := List.getElem?_eq_some_iff.1 hi
      refine List.ne_nil_of_mem (a := (rows.drop PROTECTED_ROWS)[i]) (List.mem_map.2
        ⟨((rows.drop PROTECTED_ROWS)[i], labels[i]), List.mem_filter.2 ⟨?_, by simp⟩, rfl⟩)
      exact List.mem_iff_getElem.2 ⟨i, by rw [List.length_zip]; omega, List.getElem_zip⟩

/-- **Token pooling clusters soundly**, with any update that never brings a
merged cluster nearer to a third than the nearer of its parts was. -/
theorem token_pooling_spec [LinearOrder α] [Inhabited α] (hupdate : Reducible update) :
    (∀ n distances, distances.length = n * (n - 1) / 2 →
      ChainEnds update n distances ∧
      ∀ clusters, 1 ≤ clusters → clusters ≤ n →
        ∃ w labels, (Ward.new n distances).run update n (4 * n) = some w ∧
          ward_labels update n distances clusters = some labels ∧
          LabelsOf ((sort_merges w.merges).take (n - clusters)) n clusters labels) ∧
    (∀ (distance : ρ → ρ → α) rows i j row row', i < j → rows[i]? = some row →
      rows[j]? = some row' →
        (condensed_distances distance rows)[condensed_index rows.length i j]? =
          some (distance row row')) ∧
    ∀ (arithmetic : RowMean ρ σ) (distance : ρ → ρ → α) rows factor,
      Pooling arithmetic distance update rows factor :=
  ⟨fun _ _ hlen => ⟨chainEnds hupdate hlen, fun _ hpos hle =>
      ward_labels_spec hupdate hlen hpos hle⟩,
    fun distance _ _ _ _ _ hij hi hj => getElem?_condensed_distances distance hij hi hj,
    fun arithmetic distance rows factor => pooling hupdate arithmetic distance rows factor⟩

/-! ## Ward's update -/

/-- `ward_update`, in exact arithmetic. -/
noncomputable def ward_update (d_xi d_yi d_xy : NNReal) (nx ny ni : ℕ) : NNReal :=
  let t : ℝ := 1 / (nx + ny + ni)
  Real.toNNReal (√(max ((ni + nx) * t * d_xi * d_xi + (ni + ny) * t * d_yi * d_yi -
    ni * t * d_xy * d_xy) 0))

/-- **Ward's update is reducible.** -/
theorem reducible_ward_update : Reducible ward_update := by
  intro d_xi d_yi d_xy nx ny ni hnx hny hni hx hy
  obtain ⟨m, hm⟩ : ∃ m, m = min d_xi d_yi := ⟨_, rfl⟩
  have hmx : (m : ℝ) ≤ d_xi := NNReal.coe_le_coe.2 (hm ▸ min_le_left _ _)
  have hmy : (m : ℝ) ≤ d_yi := NNReal.coe_le_coe.2 (hm ▸ min_le_right _ _)
  have hxy : (d_xy : ℝ) ≤ m := NNReal.coe_le_coe.2 (hm ▸ le_min hx hy)
  have hxy0 : (0 : ℝ) ≤ d_xy := d_xy.2
  have hsizes : (0 : ℝ) < nx + ny + ni := by positivity
  obtain ⟨t, ht⟩ : ∃ t : ℝ, t = 1 / (nx + ny + ni) := ⟨_, rfl⟩
  have ht0 : 0 ≤ t := ht ▸ by positivity
  have htsum : (nx + ny + ni) * t = 1 := by grind
  -- with both distances down to the lesser one, and the merged one up to it
  have hsquare : (m : ℝ) ^ 2 ≤ (ni + nx) * t * d_xi * d_xi + (ni + ny) * t * d_yi * d_yi -
      ni * t * d_xy * d_xy := by
    have h1 : (m : ℝ) ^ 2 ≤ d_xi * d_xi := by nlinarith
    have h2 : (m : ℝ) ^ 2 ≤ d_yi * d_yi := by nlinarith
    have h3 : (d_xy : ℝ) * d_xy ≤ m ^ 2 := by nlinarith
    have h1' := mul_le_mul_of_nonneg_left h1 (by positivity : (0 : ℝ) ≤ (ni + nx) * t)
    have h2' := mul_le_mul_of_nonneg_left h2 (by positivity : (0 : ℝ) ≤ (ni + ny) * t)
    have h3' := mul_le_mul_of_nonneg_left h3 (by positivity : (0 : ℝ) ≤ ni * t)
    nlinarith
  rw [← hm, ward_update, ← ht, Real.le_toNNReal_iff_coe_le (Real.sqrt_nonneg _)]
  exact Real.le_sqrt_of_sq_le (hsquare.trans (le_max_left _ _))

/-- Three rows under Ward's update. -/
theorem token_pooling_ward :
    ChainEnds ward_update 3 [1, 2, 2] ∧
      Pooling (⟨(), fun _ _ => (), fun _ _ => 0⟩ : RowMean NNReal Unit)
        (fun a b => max a b - min a b) ward_update [0, 1, 3, 4] 2 := by
  obtain ⟨hchain, -, hpool⟩ := @token_pooling_spec NNReal Unit NNReal _ _ _ reducible_ward_update
  exact ⟨(hchain 3 [1, 2, 2] (by decide)).1, hpool _ _ _ _⟩

end Laurus
