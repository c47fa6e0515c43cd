import Mathlib.Data.Finset.Card
import Mathlib.Logic.Relation
import Mathlib.Order.Interval.Finset.Nat

/-!
# A forest kept as a list of parents

Each entry is the parent of its index, its own if it is a root. An entry may be
replaced by one further up (`RootAt.shortcut`) without changing a root, and a root put
below another one joins two trees (`rootOf_link`). So the roots are one fewer
with each link (`card_roots_link`), and a forest of as many links as it had
roots but one, which leave a single tree, can have wasted none
(`card_roots_of_links`).
-/

namespace Laurus

namespace ParentForest

/-- The root of a node, so many parents up. -/
inductive RootAt (parents : List ℕ) : ℕ → ℕ → ℕ → Prop
  | root {r : ℕ} : parents[r]? = some r → RootAt parents r 0 r
  | step {i p d r : ℕ} : parents[i]? = some p → p ≠ i → RootAt parents p d r →
      RootAt parents i (d + 1) r

/-- The root of a node. -/
def RootOf (parents : List ℕ) (i r : ℕ) : Prop := ∃ d, RootAt parents i d r

/-- Every node has a root. -/
def Forest (parents : List ℕ) : Prop := ∀ i < parents.length, ∃ r, RootOf parents i r

/-- The nodes that are their own parents. -/
def roots (parents : List ℕ) : Finset ℕ :=
  (Finset.range parents.length).filter fun i => parents[i]? = some i

variable {parents : List ℕ} {i j d e r s : ℕ}

theorem RootAt.self (h : RootAt parents i 0 r) : i = r ∧ parents[r]? = some r := by
  obtain ⟨hroot⟩ := h
  exact ⟨rfl, hroot⟩

theorem RootAt.parent (h : RootAt parents i (d + 1) r) :
    ∃ p, parents[i]? = some p ∧ p ≠ i ∧ RootAt parents p d r := by
  rcases h with _ | ⟨hparent, hne, hrest⟩
  exact ⟨_, hparent, hne, hrest⟩

theorem RootAt.lt (h : RootAt parents i d r) : i < parents.length := by
  rcases h with h | ⟨h, -, -⟩
  · exact (List.getElem?_eq_some_iff.1 h).1
  grind

theorem RootAt.isRoot (h : RootAt parents i d r) : parents[r]? = some r := by
  induction h with
  | root h => exact h
  | step _ _ _ ih => exact ih

theorem RootOf.lt (h : RootOf parents i r) : i < parents.length := by
  obtain ⟨d, h⟩ := h
  exact h.lt

theorem RootOf.isRoot (h : RootOf parents i r) : parents[r]? = some r := by
  obtain ⟨d, h⟩ := h
  exact h.isRoot

theorem mem_roots : r ∈ roots parents ↔ parents[r]? = some r := by
  rw [roots, Finset.mem_filter, Finset.mem_range, and_iff_right_of_imp]
  grind

theorem RootAt.unique (h : RootAt parents i d r) (h' : RootAt parents i e s) : d = e ∧ r = s := by
  induction h generalizing e with
  | root hroot =>
      rcases h' with _ | ⟨hparent, hne, -⟩
      · exact ⟨rfl, rfl⟩
      grind
  | step hparent hne _ ih =>
      rcases h' with hroot | ⟨hparent', -, hrest⟩
      · grind
      grind

theorem RootOf.unique (h : RootOf parents i r) (h' : RootOf parents i s) : r = s := by
  obtain ⟨d, h⟩ := h
  obtain ⟨e, h'⟩ := h'
  exact (h.unique h').2

theorem rootOf_of_isRoot (h : parents[r]? = some r) : RootOf parents r r := ⟨0, .root h⟩

theorem RootAt.exists_depth (h : RootAt parents i d r) (he : e ≤ d) :
    ∃ j, RootAt parents j e r := by
  induction h with
  | root hroot =>
      obtain rfl : e = 0 := by omega
      exact ⟨_, .root hroot⟩
  | @step i p d r hparent hne hrest ih =>
      by_cases heq : e = d + 1
      · exact ⟨i, heq ▸ .step hparent hne hrest⟩
      · exact ih (by omega)

/-- **The way to a root is shorter than the list.** -/
theorem RootAt.depth_lt (h : RootAt parents i d r) : d < parents.length := by
  have hway : ∀ e, ∃ j, e ≤ d → RootAt parents j e r := fun e => by
    by_cases he : e ≤ d
    · grind [exists_depth]
    · exact ⟨0, fun h => absurd h he⟩
  obtain ⟨node, hnode⟩ := Classical.axiomOfChoice hway
  -- nodes at different depths are different
  have hcard : (Finset.range (d + 1)).card ≤ (Finset.range parents.length).card := by
    refine Finset.card_le_card_of_injOn node (fun e he => ?_) fun e he e' he' heq => ?_
    · grind [lt]
    · rw [Finset.coe_range, Set.mem_Iio] at he he'
      have hat := hnode e (by omega)
      grind [unique]
  grind

/-! ## Shortcuts -/

variable {g dg t : ℕ} {parents' : List ℕ}

/-- **A parent further up** leaves every root where it is, and no further. -/
theorem RootAt.shortcut (hi : RootAt parents i d r) (hg : RootAt parents g dg r)
    (hlt : dg < d) (hj : RootAt parents j e s) :
    ∃ e' ≤ e, RootAt (parents.set i g) j e' s := by
  induction e using Nat.strong_induction_on generalizing j s with
  | _ e ih =>
      by_cases hji : j = i
      · -- the node itself goes up through `g`
        subst hji
        obtain ⟨rfl, rfl⟩ := hj.unique hi
        obtain ⟨e', hle, hroot⟩ := ih dg hlt hg
        have hgj : g ≠ j := by
          rintro rfl
          exact absurd (hg.unique hi).1 (by omega)
        refine ⟨e' + 1, by omega, .step ?_ hgj hroot⟩
        rw [List.getElem?_set_self hi.lt]
      · rcases hj with hroot | ⟨hparent, hne, hrest⟩
        · refine ⟨0, Nat.le_refl 0, .root ?_⟩
          grind
        · obtain ⟨e', hle, hroot⟩ := ih _ (by omega) hrest
          refine ⟨e' + 1, by omega, .step ?_ hne hroot⟩
          grind

theorem forest_of_shortcut (hforest : Forest parents) (hi : RootAt parents i d r)
    (hg : RootAt parents g dg r) (hlt : dg < d) : Forest (parents.set i g) := by
  intro j hj
  rw [List.length_set] at hj
  obtain ⟨s, e, hs⟩ := hforest j hj
  obtain ⟨e', -, hs'⟩ := hi.shortcut hg hlt hs
  exact ⟨s, e', hs'⟩

theorem rootOf_shortcut (hforest : Forest parents) (hi : RootAt parents i d r)
    (hg : RootAt parents g dg r) (hlt : dg < d) :
    RootOf (parents.set i g) j s ↔ RootOf parents j s := by
  have hkeep : ∀ {s}, RootOf parents j s → RootOf (parents.set i g) j s := fun ⟨_, hs⟩ => by
    obtain ⟨e', -, hs'⟩ := hi.shortcut hg hlt hs
    exact ⟨e', hs'⟩
  refine ⟨fun h => ?_, hkeep⟩
  obtain ⟨s', hs'⟩ := hforest j (by simpa using h.lt)
  rwa [h.unique (hkeep hs')]

/-! ## Links -/

theorem RootAt.link (ht : parents[t]? = some t) (hr : parents[r]? = some r) (hne : t ≠ r)
    (h : RootAt parents j d s) : RootOf (parents.set r t) j (if s = r then t else s) := by
  have htop : RootOf (parents.set r t) t t :=
    rootOf_of_isRoot (by grind)
  induction h with
  | @root s hs =>
      by_cases hsr : s = r
      · subst hsr
        obtain ⟨d, htop⟩ := htop
        rw [if_pos rfl]
        refine ⟨d + 1, .step ?_ hne htop⟩
        grind
      · rw [if_neg hsr]
        refine rootOf_of_isRoot ?_
        grind
  | @step i p d s hparent hnp _ ih =>
      obtain ⟨e, ih⟩ := ih
      refine ⟨e + 1, .step ?_ hnp ih⟩
      grind

theorem forest_of_link (hforest : Forest parents) (ht : parents[t]? = some t)
    (hr : parents[r]? = some r) (hne : t ≠ r) : Forest (parents.set r t) := by
  intro j hj
  rw [List.length_set] at hj
  obtain ⟨s, d, hs⟩ := hforest j hj
  exact ⟨_, hs.link ht hr hne⟩

/-- **A link joins two trees**, and no others. -/
theorem rootOf_link (hforest : Forest parents) (ht : parents[t]? = some t)
    (hr : parents[r]? = some r) (hne : t ≠ r) :
    RootOf (parents.set r t) j s ↔ ∃ s', RootOf parents j s' ∧ s = if s' = r then t else s' := by
  constructor
  · intro h
    obtain ⟨s', d, hs'⟩ := hforest j (by simpa using h.lt)
    exact ⟨s', ⟨d, hs'⟩, h.unique (hs'.link ht hr hne)⟩
  · rintro ⟨s', ⟨d, hs'⟩, rfl⟩
    exact hs'.link ht hr hne

theorem roots_link (hr : parents[r]? = some r) (hne : t ≠ r) :
    roots (parents.set r t) = (roots parents).erase r := by
  grind [mem_roots]

/-- **A link leaves one root fewer.** -/
theorem card_roots_link (hr : parents[r]? = some r) (hne : t ≠ r) :
    (roots (parents.set r t)).card + 1 = (roots parents).card := by
  rw [roots_link hr hne, Finset.card_erase_add_one (mem_roots.2 hr)]

/-! ## Trees joined by edges -/

/-- Two nodes of one tree. -/
def Joined (parents : List ℕ) (i j : ℕ) : Prop := ∃ r, RootOf parents i r ∧ RootOf parents j r

theorem Joined.symm (h : Joined parents i j) : Joined parents j i := by
  obtain ⟨r, hi, hj⟩ := h
  exact ⟨r, hj, hi⟩

theorem Joined.trans {k : ℕ} (h : Joined parents i j) (h' : Joined parents j k) :
    Joined parents i k := by
  obtain ⟨r, hi, hj⟩ := h
  obtain ⟨s, hj', hk⟩ := h'
  obtain rfl := hj.unique hj'
  exact ⟨r, hi, hk⟩

theorem joined_self (hforest : Forest parents) (hi : i < parents.length) : Joined parents i i := by
  obtain ⟨r, hr⟩ := hforest i hi
  exact ⟨r, hr, hr⟩

theorem set_root (hr : parents[r]? = some r) : parents.set r r = parents := by
  refine List.ext_getElem? fun i => ?_
  grind

/-- What the roots of two nodes make of it when one is put below the other. -/
structure Union (parents parents' : List ℕ) (x y : ℕ) : Prop where
  length_eq : parents'.length = parents.length
  forest : Forest parents'
  card_roots : (roots parents).card ≤ (roots parents').card + 1
  joined : ∀ i j, Joined parents' i j ↔ Joined parents i j ∨
    (Joined parents i x ∧ Joined parents y j) ∨ (Joined parents i y ∧ Joined parents x j)

/-- **Putting one root below the other joins two trees**, if they are two. -/
theorem union_set {x y : ℕ} (hforest : Forest parents) (hx : RootOf parents x r)
    (hy : RootOf parents y t) : Union parents (parents.set r t) x y := by
  by_cases hne : t = r
  · subst hne
    rw [set_root hx.isRoot]
    refine ⟨rfl, hforest, Nat.le_succ _, fun i j => ⟨Or.inl, ?_⟩⟩
    have hxy : Joined parents x y := ⟨t, hx, hy⟩
    rintro (h | ⟨hi, hj⟩ | ⟨hi, hj⟩)
    · exact h
    · exact (hi.trans hxy).trans hj
    · exact (hi.trans hxy.symm).trans hj
  · refine ⟨List.length_set, forest_of_link hforest hy.isRoot hx.isRoot hne,
      (card_roots_link hx.isRoot hne).ge, fun i j => ?_⟩
    constructor
    · rintro ⟨s, hi, hj⟩
      obtain ⟨si, hi', rfl⟩ := (rootOf_link hforest hy.isRoot hx.isRoot hne).1 hi
      obtain ⟨sj, hj', heq⟩ := (rootOf_link hforest hy.isRoot hx.isRoot hne).1 hj
      by_cases hsi : si = r
      · subst hsi
        by_cases hsj : sj = si
        · subst hsj
          exact Or.inl ⟨sj, hi', hj'⟩
        · rw [if_pos rfl, if_neg hsj] at heq
          subst heq
          exact Or.inr (Or.inl ⟨⟨si, hi', hx⟩, ⟨t, hy, hj'⟩⟩)
      · by_cases hsj : sj = r
        · subst hsj
          rw [if_neg hsi, if_pos rfl] at heq
          subst heq
          exact Or.inr (Or.inr ⟨⟨si, hi', hy⟩, ⟨sj, hx, hj'⟩⟩)
        · rw [if_neg hsi, if_neg hsj] at heq
          subst heq
          exact Or.inl ⟨si, hi', hj'⟩
    · have hnew : ∀ {k s}, RootOf parents k s →
          RootOf (parents.set r t) k (if s = r then t else s) := fun hk =>
        (rootOf_link hforest hy.isRoot hx.isRoot hne).2 ⟨_, hk, rfl⟩
      have hx' := hnew hx
      have hy' := hnew hy
      rintro (⟨s, hi, hj⟩ | ⟨⟨s, hi, hxs⟩, ⟨s', hys, hj⟩⟩ | ⟨⟨s, hi, hys⟩, ⟨s', hxs, hj⟩⟩)
      · exact ⟨_, hnew hi, hnew hj⟩
      · obtain rfl := hxs.unique hx
        obtain rfl := hys.unique hy
        have hi' := hnew hi
        have hj' := hnew hj
        rw [if_pos rfl] at hi'
        rw [if_neg hne] at hj'
        exact ⟨_, hi', hj'⟩
      · obtain rfl := hxs.unique hx
        obtain rfl := hys.unique hy
        have hi' := hnew hi
        have hj' := hnew hj
        rw [if_neg hne] at hi'
        rw [if_pos rfl] at hj'
        exact ⟨_, hi', hj'⟩

/-- A forest with the same roots. -/
structure SameRoots (parents parents' : List ℕ) : Prop where
  length_eq : parents'.length = parents.length
  forest : Forest parents'
  rootOf : ∀ i r, RootOf parents' i r ↔ RootOf parents i r

theorem SameRoots.refl (hforest : Forest parents) : SameRoots parents parents :=
  ⟨rfl, hforest, fun _ _ => Iff.rfl⟩

theorem SameRoots.trans {parents'' : List ℕ} (h : SameRoots parents parents')
    (h' : SameRoots parents' parents'') : SameRoots parents parents'' :=
  ⟨h'.length_eq.trans h.length_eq, h'.forest, fun i r => (h'.rootOf i r).trans (h.rootOf i r)⟩

theorem SameRoots.joined (h : SameRoots parents parents') :
    Joined parents' i j ↔ Joined parents i j := by
  simp only [Joined, h.rootOf]

theorem SameRoots.roots_eq (h : SameRoots parents parents') :
    roots parents' = roots parents := by
  ext r
  rw [mem_roots, mem_roots]
  exact ⟨fun hr => ((h.rootOf r r).1 (rootOf_of_isRoot hr)).isRoot,
    fun hr => ((h.rootOf r r).2 (rootOf_of_isRoot hr)).isRoot⟩

theorem sameRoots_shortcut (hforest : Forest parents) (hi : RootAt parents i d r)
    (hg : RootAt parents g dg r) (hlt : dg < d) : SameRoots parents (parents.set i g) :=
  ⟨List.length_set, forest_of_shortcut hforest hi hg hlt,
    fun _ _ => rootOf_shortcut hforest hi hg hlt⟩

theorem card_roots_le_one (h : ∀ i < parents.length, ∀ j < parents.length, Joined parents i j) :
    (roots parents).card ≤ 1 := by
  refine Finset.card_le_one.2 fun r hr s hs => ?_
  rw [mem_roots] at hr hs
  obtain ⟨t, hrt, hst⟩ :=
    h r (List.getElem?_eq_some_iff.1 hr).1 s (List.getElem?_eq_some_iff.1 hs).1
  rw [(rootOf_of_isRoot hr).unique hrt, (rootOf_of_isRoot hs).unique hst]

/-! ## Single nodes -/

theorem range_getElem? {n : ℕ} (h : i < n) : (List.range n)[i]? = some i := by
  rw [List.getElem?_range h]

theorem forest_range (n : ℕ) : Forest (List.range n) := by
  intro i hi
  rw [List.length_range] at hi
  exact ⟨i, rootOf_of_isRoot (range_getElem? hi)⟩

theorem roots_range (n : ℕ) : roots (List.range n) = Finset.range n := by
  ext i
  rw [mem_roots, Finset.mem_range]
  grind

end ParentForest

end Laurus
