import Laurus.Vector.Helpers.TokenPooling

/-!
# The clusters that merges leave

Whatever merges are applied, in whatever order, each leaves at most one root
fewer, and all of them leave one. So none of them joins what is joined already,
and `n - k` merges leave `k` clusters (`card_roots_lowest`).
-/

namespace Laurus

open ParentForest

variable {α : Type} {parents parents' : List ℕ} {n d i j r : ℕ}

/-! ## Finding and joining -/

/-- **`find` returns the root**, and its path halving moves none. -/
theorem find_spec {turns : ℕ} (hforest : Forest parents) (h : RootAt parents i d r)
    (hturns : d < turns) :
    ∃ parents', find turns parents i = some (r, parents') ∧ SameRoots parents parents' := by
  induction turns generalizing parents i d with
  | zero => exact absurd hturns (Nat.not_lt_zero d)
  | succ turns ih =>
      rw [find]
      rcases d with _ | d
      · obtain ⟨rfl, hroot⟩ := h.self
        refine ⟨parents, ?_, .refl hforest⟩
        grind
      · obtain ⟨p, hparent, hne, hrest⟩ := h.parent
        obtain ⟨g, dg, hread, hg, hle⟩ : ∃ g dg, parents[p]? = some g ∧
            RootAt parents g dg r ∧ dg ≤ d := by
          rcases d with _ | d
          · obtain ⟨rfl, hroot⟩ := hrest.self
            grind
          grind [RootAt.parent]
        have hshort := sameRoots_shortcut hforest h hg (by omega)
        obtain ⟨dg', hle', hg'⟩ := h.shortcut hg (by omega) hg
        grind [SameRoots.forest, SameRoots.trans]

theorem find_length (hforest : Forest parents) (hi : i < parents.length) :
    ∃ r parents', find parents.length parents i = some (r, parents') ∧
      RootOf parents i r ∧ SameRoots parents parents' := by
  obtain ⟨r, d, hr⟩ := hforest i hi
  obtain ⟨parents', hfind, hsame⟩ := find_spec hforest hr hr.depth_lt
  exact ⟨r, parents', hfind, ⟨d, hr⟩, hsame⟩

/-- **A merge joins two trees**, if they are two. -/
theorem apply_merge_spec (hforest : Forest parents) {m : α × ℕ × ℕ}
    (hx : m.2.1 < parents.length) (hy : m.2.2 < parents.length) :
    ∃ parents', apply_merge parents m = some parents' ∧ Union parents parents' m.2.1 m.2.2 := by
  obtain ⟨rx, parents₁, hfindx, hrx, hsame₁⟩ := find_length hforest hx
  obtain ⟨ry, parents₂, hfindy, hry, hsame₂⟩ :=
    find_length hsame₁.forest (hsame₁.length_eq.symm ▸ hy)
  have hsame := hsame₁.trans hsame₂
  have hunion := union_set hsame.forest ((hsame.rootOf _ _).2 hrx) ((hsame₂.rootOf _ _).2 hry)
  refine ⟨_, ?_, ⟨hunion.length_eq.trans hsame.length_eq, hunion.forest, ?_, fun i j => ?_⟩⟩
  · rw [apply_merge, hfindx]
    grind
  · rw [← hsame.roots_eq]
    exact hunion.card_roots
  · rw [hunion.joined]
    simp only [hsame.joined]

/-- What applying merges makes of a forest. -/
structure Applied (merges : List (α × ℕ × ℕ)) (parents parents' : List ℕ) : Prop where
  length_eq : parents'.length = parents.length
  forest : Forest parents'
  card_roots : (roots parents).card ≤ (roots parents').card + merges.length
  keeps : ∀ i j, Joined parents i j → Joined parents' i j
  joins : ∀ m ∈ merges, Joined parents' m.2.1 m.2.2
  only : ∀ i j, Joined parents' i j →
    Relation.EqvGen (fun a b => Joined parents a b ∨ Ward.Merged merges a b) i j

theorem foldlM_apply_merge (merges : List (α × ℕ × ℕ)) (hforest : Forest parents)
    (hmerges : ∀ m ∈ merges, m.2.1 < parents.length ∧ m.2.2 < parents.length) :
    ∃ parents', merges.foldlM apply_merge parents = some parents' ∧
      Applied merges parents parents' := by
  induction merges generalizing parents with
  | nil =>
      exact ⟨parents, rfl, rfl, hforest, Nat.le_refl _, fun _ _ h => h,
        fun m hm => absurd hm List.not_mem_nil, fun i j h => .rel i j (Or.inl h)⟩
  | cons m merges ih =>
      obtain ⟨hx, hy⟩ := hmerges m List.mem_cons_self
      obtain ⟨parents₁, hone, hunion⟩ := apply_merge_spec hforest hx hy
      obtain ⟨parents', hfold, hrest⟩ := ih hunion.forest fun m' hm' => by
        rw [hunion.length_eq]
        grind
      have hkeep : ∀ i j, Joined parents i j → Joined parents' i j := fun i j h =>
        hrest.keeps i j ((hunion.joined i j).2 (Or.inl h))
      refine ⟨parents', by grind,
        hrest.length_eq.trans hunion.length_eq, hrest.forest, ?_, hkeep, fun m' hm' => ?_,
        fun i j h => ?_⟩
      · have := hunion.card_roots
        have := hrest.card_roots
        rw [List.length_cons]
        omega
      · grind [Applied.keeps, Union.joined, joined_self, Applied.joins]
      · -- what one merge joins, a path over it does
        let joins := fun a b => Joined parents a b ∨ Ward.Merged (m :: merges) a b
        have hold : ∀ a b, Joined parents a b → Relation.EqvGen joins a b := fun a b hab =>
          .rel a b (Or.inl hab)
        have hmerged : Relation.EqvGen joins m.2.1 m.2.2 :=
          .rel _ _ (Or.inr ⟨m, List.mem_cons_self, rfl⟩)
        refine @Relation.EqvGen.eqvGen_le ℕ _ (Relation.EqvGen joins) _ ?_ i j (hrest.only i j h)
        rintro a b (hab | ⟨m', hm', heq⟩)
        · rcases (hunion.joined a b).1 hab with hab | ⟨ha, hb⟩ | ⟨ha, hb⟩
          · exact hold a b hab
          · exact ((hold _ _ ha).trans _ _ _ hmerged).trans _ _ _ (hold _ _ hb)
          · exact ((hold _ _ ha).trans _ _ _ (hmerged.symm _ _)).trans _ _ _ (hold _ _ hb)
        · exact .rel a b (Or.inr ⟨m', List.mem_cons_of_mem _ hm', heq⟩)

/-- **The classes of single rows after some merges** are what the merges
connect. -/
theorem Applied.joined_iff {merges : List (α × ℕ × ℕ)}
    (h : Applied merges (List.range n) parents') :
    Joined parents' i j ↔ j < n ∧ Relation.EqvGen (Ward.Merged merges) i j := by
  have hlen : parents'.length = n := h.length_eq.trans List.length_range
  have hsingle : ∀ a b, Joined (List.range n) a b → a = b := by
    rintro a b ⟨s, ha, hb⟩
    have hroot : ∀ {c}, RootOf (List.range n) c s → c = s := fun hc => by
      have hlt := hc.lt
      rw [List.length_range] at hlt
      exact (rootOf_of_isRoot (range_getElem? hlt)).unique hc
    rw [hroot ha, hroot hb]
  constructor
  · intro hjoined
    obtain ⟨s, hi', hj'⟩ := hjoined
    refine ⟨hlen ▸ hj'.lt, ?_⟩
    refine @Relation.EqvGen.eqvGen_le ℕ _ (Relation.EqvGen (Ward.Merged merges)) _ ?_ i j
      (h.only i j ⟨s, hi', hj'⟩)
    rintro a b (hab | hab)
    · rw [hsingle a b hab]
      exact .refl b
    · exact .rel a b hab
  · rintro ⟨hj, hpath⟩
    have hor : i = j ∨ Joined parents' i j := by
      clear hj
      induction hpath with
      | rel a b hab =>
          obtain ⟨m, hm, heq⟩ := hab
          have hjoin := h.joins m hm
          grind
      | refl a => exact Or.inl rfl
      | symm a b _ ih => exact ih.imp Eq.symm ParentForest.Joined.symm
      | trans a b c _ _ ihab ihbc =>
          rcases ihab with rfl | hab
          · exact ihbc
          grind [ParentForest.Joined.trans]
    grind [joined_self, forest]

/-! ## The lowest merges -/

section Lowest

variable [LinearOrder α] [Inhabited α] {w : Ward α} {clusters : ℕ}

omit [Inhabited α] in
theorem mem_sort_merges {merges : List (α × ℕ × ℕ)} {m : α × ℕ × ℕ} :
    m ∈ sort_merges merges ↔ m ∈ merges := (List.perm_insertionSort _ merges).mem_iff

omit [Inhabited α] in
theorem length_sort_merges (merges : List (α × ℕ × ℕ)) :
    (sort_merges merges).length = merges.length := List.length_insertionSort _ _

theorem Ward.Sound.all_connected (h : Ward.Sound n w) (hmerges : w.merges.length = n - 1)
    (hi : i < n) (hj : j < n) : Relation.EqvGen (Ward.Merged w.merges) i j := by
  obtain ⟨c, hc, hic⟩ := h.connected i hi
  obtain ⟨c', hc', hjc⟩ := h.connected j hj
  have hcard := h.active_card
  have hone := Finset.card_le_one.1 (show (Ward.active_clusters w.size).card ≤ 1 by omega)
  obtain rfl := hone c (Ward.mem_active_clusters.2 hc) c' (Ward.mem_active_clusters.2 hc')
  exact hic.trans _ _ _ (hjc.symm _ _)

/-- **The lowest merges leave as many clusters as they should.** -/
theorem card_roots_lowest (h : Ward.Sound n w) (hmerges : w.merges.length = n - 1)
    (hpos : 1 ≤ clusters) (hle : clusters ≤ n) :
    ∃ parents, ((sort_merges w.merges).take (n - clusters)).foldlM apply_merge (List.range n) =
        some parents ∧
      Applied ((sort_merges w.merges).take (n - clusters)) (List.range n) parents ∧
      (roots parents).card = clusters := by
  have hvalid : ∀ m ∈ sort_merges w.merges, m.2.1 < n ∧ m.2.2 < n := fun m hm => by
    obtain ⟨hless, hlt, -⟩ := h.merged m (mem_sort_merges.1 hm)
    omega
  obtain ⟨lowest, hlowest⟩ : ∃ lowest, lowest = (sort_merges w.merges).take (n - clusters) :=
    ⟨_, rfl⟩
  obtain ⟨higher, hhigher⟩ : ∃ higher, higher = (sort_merges w.merges).drop (n - clusters) :=
    ⟨_, rfl⟩
  have hsplit : sort_merges w.merges = lowest ++ higher := by
    rw [hlowest, hhigher, List.take_append_drop]
  have hlen := length_sort_merges w.merges
  obtain ⟨parents, hfold, happlied⟩ := foldlM_apply_merge lowest (forest_range n) fun m hm => by
    grind
  obtain ⟨parents', hfold', happlied'⟩ := foldlM_apply_merge higher happlied.forest fun m hm => by
    rw [happlied.length_eq, List.length_range]
    grind
  obtain ⟨parents'', hfold'', happlied''⟩ :=
    foldlM_apply_merge (sort_merges w.merges) (forest_range n) fun m hm => by grind
  have hsame : parents'' = parents' := by
    rw [hsplit, List.foldlM_append, hfold, Option.bind_eq_bind, Option.bind_some, hfold',
      Option.some.injEq] at hfold''
    exact hfold''.symm
  have hlength : parents'.length = n := by
    rw [happlied'.length_eq, happlied.length_eq, List.length_range]
  have hone : (roots parents').card ≤ 1 := by
    refine card_roots_le_one fun i hi j hj => ?_
    rw [hlength] at hi hj
    rw [← hsame, happlied''.joined_iff]
    refine ⟨hj, Relation.EqvGen.mono (fun a b hab => ?_) i j (h.all_connected hmerges hi hj)⟩
    obtain ⟨m, hm, heq⟩ := hab
    exact ⟨m, mem_sort_merges.2 hm, heq⟩
  have hfew := happlied.card_roots
  have hmany := happlied'.card_roots
  rw [roots_range, Finset.card_range] at hfew
  grind

end Lowest

/-! ## The labels -/

/-- Numbered by first appearance: each label came before, or is the number of
those that did. -/
inductive FirstNumbered : List ℕ → Prop
  | nil : FirstNumbered []
  | known {labels : List ℕ} {label : ℕ} : FirstNumbered labels → label ∈ labels →
      FirstNumbered (labels ++ [label])
  | next {labels : List ℕ} : FirstNumbered labels →
      FirstNumbered (labels ++ [labels.toFinset.card])

/-- What holds when the first `k` rows are labelled; `seen` are their roots, in
the order in which they came up. -/
structure Labelled (parents : List ℕ) (root : ℕ → ℕ) (seen : List ℕ) (k : ℕ) (l : Labels) :
    Prop where
  same : SameRoots parents l.parent
  table : ∀ r < parents.length,
    l.label_of_root[r]? = some (if r ∈ seen then some (seen.idxOf r) else none)
  next_eq : l.next = seen.length
  labels_eq : l.labels = (List.range k).map fun i => seen.idxOf (root i)
  mem_seen : ∀ r, r ∈ seen ↔ ∃ i < k, root i = r
  nodup : seen.Nodup
  numbered : FirstNumbered l.labels

variable {root : ℕ → ℕ} {seen : List ℕ} {k : ℕ} {l : Labels}

theorem Labelled.toFinset_labels (h : Labelled parents root seen k l) :
    l.labels.toFinset = Finset.range seen.length := by
  ext label
  rw [List.mem_toFinset, h.labels_eq, List.mem_map, Finset.mem_range]
  constructor
  · grind [mem_seen]
  · intro hlt
    obtain ⟨i, hi, hroot⟩ := (h.mem_seen _).1 (List.getElem_mem hlt)
    refine ⟨i, List.mem_range.2 hi, ?_⟩
    rw [hroot, List.Nodup.idxOf_getElem h.nodup]

/-- **One more row is labelled.** -/
theorem Labelled.label (h : Labelled parents root seen k l)
    (hroot : ∀ i < parents.length, RootOf parents i (root i)) (hk : k < parents.length) :
    ∃ seen' l', l.label k = some l' ∧ Labelled parents root seen' (k + 1) l' := by
  obtain ⟨r, parents', hfind, hr, hsame⟩ :=
    find_length h.same.forest (h.same.length_eq.symm ▸ hk)
  obtain rfl := (hroot k hk).unique ((h.same.rootOf k r).1 hr)
  have hrlt : root k < parents.length := (List.getElem?_eq_some_iff.1 (hroot k hk).isRoot).1
  have htable := h.table (root k) hrlt
  have hrows : ∀ r, (∃ i < k + 1, root i = r) ↔ (∃ i < k, root i = r) ∨ root k = r := by grind
  by_cases hin : root k ∈ seen
  · -- a root that came up before has a label
    rw [if_pos hin] at htable
    refine ⟨seen, { l with parent := parents', labels := l.labels ++ [seen.idxOf (root k)] }, ?_,
      h.same.trans hsame, h.table, h.next_eq, ?_, fun r => ?_, h.nodup, .known h.numbered ?_⟩
    · simp only [Labels.label, hfind, htable, Option.bind_eq_bind, Option.bind_some]
      rfl
    · rw [List.range_succ, List.map_append, h.labels_eq]
      rfl
    · rw [hrows, h.mem_seen, or_iff_left_of_imp]
      rintro rfl
      exact (h.mem_seen _).1 hin
    · have hlabel : seen.idxOf (root k) ∈ l.labels.toFinset := by
        rw [h.toFinset_labels, Finset.mem_range]
        exact List.idxOf_lt_length_of_mem hin
      exact List.mem_toFinset.1 hlabel
  · rw [if_neg hin] at htable
    have hold : ∀ r ∈ seen, (seen ++ [root k]).idxOf r = seen.idxOf r := fun r hr =>
      List.idxOf_append_of_mem hr
    have hnew : (seen ++ [root k]).idxOf (root k) = l.next := by
      rw [List.idxOf_append_of_notMem hin, List.idxOf_cons_self, h.next_eq, Nat.add_zero]
    refine ⟨seen ++ [root k], { parent := parents'
                                label_of_root := l.label_of_root.set (root k) (some l.next)
                                next := l.next + 1, labels := l.labels ++ [l.next] },
      ?_, h.same.trans hsame, fun r hr => ?_, ?_, ?_, fun r => ?_, ?_, ?_⟩
    · simp only [Labels.label, hfind, htable, Option.bind_eq_bind, Option.bind_some]
      rfl
    · dsimp only
      by_cases hrk : r = root k
      · grind
      · rw [List.getElem?_set_ne (Ne.symm hrk), h.table r hr]
        grind
    · grind
    · dsimp only
      rw [List.range_succ, List.map_append, List.map_singleton, hnew, h.labels_eq]
      refine congrArg (· ++ [l.next]) (List.map_congr_left fun i hi => ?_)
      rw [hold _ ((h.mem_seen _).2 ⟨i, List.mem_range.1 hi, rfl⟩)]
    · rw [List.mem_append, List.mem_singleton, hrows, h.mem_seen, eq_comm (a := r)]
    · grind [nodup]
    · have hcard : l.labels.toFinset.card = l.next := by
        rw [h.toFinset_labels, Finset.card_range, h.next_eq]
      dsimp only
      rw [← hcard]
      exact .next h.numbered

/-- **Every row is labelled.** -/
theorem foldlM_label (hforest : Forest parents)
    (hroot : ∀ i < parents.length, RootOf parents i (root i)) (hk : k ≤ parents.length) :
    ∃ seen l, (List.range k).foldlM Labels.label
        { parent := parents, label_of_root := List.replicate parents.length none, next := 0
          labels := [] } = some l ∧
      Labelled parents root seen k l := by
  induction k with
  | zero =>
      refine ⟨[], _, rfl, .refl hforest, fun r hr => ?_, rfl, rfl, fun r => ?_, List.nodup_nil,
        .nil⟩
      · grind
      simp
  | succ k ih =>
      obtain ⟨seen, l, hfold, hl⟩ := ih (by omega)
      obtain ⟨seen', l', hlabel, hl'⟩ := hl.label hroot (by omega)
      refine ⟨seen', l', ?_, hl'⟩
      rw [List.range_succ, List.foldlM_append, hfold, Option.bind_eq_bind, Option.bind_some,
        List.foldlM_cons, hlabel]
      rfl

/-- The labels say which rows some merges connect; they are numbered by first
appearance, and there are so many. -/
structure LabelsOf (merges : List (α × ℕ × ℕ)) (n clusters : ℕ) (labels : List ℕ) : Prop where
  length_eq : labels.length = n
  same : ∀ i j a b, labels[i]? = some a → labels[j]? = some b →
    (a = b ↔ Relation.EqvGen (Ward.Merged merges) i j)
  numbered : FirstNumbered labels
  mem : ∀ label, label ∈ labels ↔ label < clusters

theorem labelsOf_foldlM {merges : List (α × ℕ × ℕ)} {clusters : ℕ}
    (h : Applied merges (List.range n) parents) (hcard : (roots parents).card = clusters) :
    ∃ l, (List.range n).foldlM Labels.label
        { parent := parents, label_of_root := List.replicate n none, next := 0, labels := [] } =
          some l ∧
      LabelsOf merges n clusters l.labels := by
  have hlen : parents.length = n := h.length_eq.trans List.length_range
  have hroots : ∀ i, ∃ r, i < parents.length → RootOf parents i r := fun i => by
    by_cases hi : i < parents.length
    · obtain ⟨r, hr⟩ := h.forest i hi
      exact ⟨r, fun _ => hr⟩
    · exact ⟨0, fun hlt => absurd hlt hi⟩
  obtain ⟨root, hroot⟩ := Classical.axiomOfChoice hroots
  obtain ⟨seen, l, hfold, hl⟩ := foldlM_label h.forest hroot (Nat.le_refl _)
  rw [hlen] at hfold hl
  have hget : ∀ {i a}, l.labels[i]? = some a → i < n ∧ seen.idxOf (root i) = a := by
    intro i a hi
    rw [hl.labels_eq, List.getElem?_map, Option.map_eq_some_iff] at hi
    grind
  have hseen : seen.length = clusters := by
    rw [← hcard, ← List.toFinset_card_of_nodup hl.nodup]
    refine congrArg Finset.card (Finset.ext fun r => ?_)
    rw [List.mem_toFinset, hl.mem_seen, mem_roots]
    constructor
    · rintro ⟨i, hi, rfl⟩
      exact (hroot i (hlen.symm ▸ hi)).isRoot
    · intro hr
      have hlt := (List.getElem?_eq_some_iff.1 hr).1
      exact ⟨r, hlen ▸ hlt, (hroot r hlt).unique (rootOf_of_isRoot hr)⟩
  refine ⟨l, hfold, ?_, fun i j a b ha hb => ?_, hl.numbered, fun label => ?_⟩
  · rw [hl.labels_eq, List.length_map, List.length_range]
  · obtain ⟨hi, rfl⟩ := hget ha
    obtain ⟨hj, rfl⟩ := hget hb
    have hri := hroot i (hlen.symm ▸ hi)
    have hrj := hroot j (hlen.symm ▸ hj)
    have hjoined : Joined parents i j ↔ root i = root j := by
      constructor
      · rintro ⟨r, hir, hjr⟩
        rw [hri.unique hir, hrj.unique hjr]
      · exact fun heq => ⟨root i, hri, heq ▸ hrj⟩
    rw [List.idxOf_inj ((hl.mem_seen _).2 ⟨i, hi, rfl⟩), ← hjoined, h.joined_iff,
      and_iff_right hj]
  · rw [← List.mem_toFinset, hl.toFinset_labels, Finset.mem_range, hseen]

end Laurus
