import Laurus.Common.NearestChain
import Laurus.Common.ParentForest
import Laurus.Vector.Model.TokenPooling
import Mathlib.Algebra.Group.Nat.Even
import Mathlib.Tactic.Ring

/-!
# The walk of nearest neighbours ends

A turn either puts one more cluster on the chain or merges the two on its end
(`Sound.turn`), and what it keeps is that the chain descends. Each turn brings the
`n - 1` merges nearer, so as many turns as `4 * n` are enough (`Reached.run`).
-/

namespace Laurus

section CondensedIndex

/-!
## The condensed matrix of distances

The entries of a row start where those of the rows before end
(`row_offset_succ`), so every pair has an entry of its own
(`pair_index_lt`, `pair_index_inj`).
-/

variable {n i j k l a b c d : ℕ}

/-- Where the distances of a row start. -/
def row_offset (n i : ℕ) : ℕ := n * i - i * (i + 1) / 2

theorem condensed_index_eq (n i j : ℕ) : condensed_index n i j = row_offset n i + (j - i - 1) := rfl

theorem half_le (h : i + 1 ≤ n) : i * (i + 1) / 2 ≤ n * i := by
  have hmul : i * (i + 1) ≤ i * n := Nat.mul_le_mul_left i h
  grind

theorem half_succ (i : ℕ) : (i + 1) * (i + 1 + 1) / 2 = i * (i + 1) / 2 + (i + 1) := by grind

theorem row_offset_succ (h : i + 1 ≤ n) :
    row_offset n (i + 1) = row_offset n i + (n - (i + 1)) := by
  have hhalf := half_le h
  rw [row_offset, row_offset, half_succ, Nat.mul_succ]
  omega

theorem row_offset_mono (hik : i ≤ k) (hk : k ≤ n) : row_offset n i ≤ row_offset n k := by
  induction k, hik using Nat.le_induction with
  | base => exact Nat.le_refl _
  | succ k hik ih =>
      rw [row_offset_succ hk]
      omega

theorem row_offset_last (h : 0 < n) : row_offset n (n - 1) = n * (n - 1) / 2 := by
  obtain ⟨m, rfl⟩ := Nat.exists_eq_succ_of_ne_zero (by omega : n ≠ 0)
  obtain ⟨half, hhalf⟩ := Nat.even_mul_succ_self m
  grind [row_offset]

theorem condensed_index_lt (hij : i < j) (hj : j < n) :
    condensed_index n i j < n * (n - 1) / 2 := by
  have hnext := @row_offset_succ n i (by omega)
  have hmono := @row_offset_mono n _ _ (show i + 1 ≤ n - 1 by omega) (by omega)
  rw [row_offset_last (by omega)] at hmono
  rw [condensed_index_eq]
  omega

theorem condensed_index_lt_of_lt (hij : i < j) (hj : j < n) (hik : i < k) (hk : k < n) (l : ℕ) :
    condensed_index n i j < condensed_index n k l := by
  have hnext := @row_offset_succ n i (by omega)
  have hmono := @row_offset_mono n _ _ (show i + 1 ≤ k by omega) (by omega)
  rw [condensed_index_eq, condensed_index_eq]
  omega

theorem condensed_index_inj (hij : i < j) (hj : j < n) (hkl : k < l) (hl : l < n)
    (h : condensed_index n i j = condensed_index n k l) : i = k ∧ j = l := by
  rcases Nat.lt_trichotomy i k with hik | rfl | hki
  · have := condensed_index_lt_of_lt hij hj hik (by omega) l
    omega
  · rw [condensed_index_eq, condensed_index_eq] at h
    omega
  · have := condensed_index_lt_of_lt hkl hl hki (by omega) j
    omega

theorem pair_index_comm (a b : ℕ) (h : a ≠ b) : pair_index n a b = pair_index n b a := by
  rw [pair_index, pair_index]
  grind

theorem pair_index_lt (hne : a ≠ b) (ha : a < n) (hb : b < n) :
    pair_index n a b < n * (n - 1) / 2 := by
  rw [pair_index]
  split
  · exact condensed_index_lt (by omega) hb
  · exact condensed_index_lt (by omega) ha

/-- **A pair has an entry of its own.** -/
theorem pair_index_inj (hab : a ≠ b) (ha : a < n) (hb : b < n) (hcd : c ≠ d) (hc : c < n)
    (hd : d < n) (h : pair_index n a b = pair_index n c d) :
    (a = c ∧ b = d) ∨ (a = d ∧ b = c) := by
  rw [pair_index, pair_index] at h
  split at h
  · split at h
    · exact Or.inl (condensed_index_inj (by omega) hb (by omega) hd h)
    · exact Or.inr (condensed_index_inj (by omega) hb (by omega) hc h)
  · split at h
    · obtain ⟨hbc, had⟩ := condensed_index_inj (by omega) ha (by omega) hd h
      exact Or.inr ⟨had, hbc⟩
    · obtain ⟨hbd, hac⟩ := condensed_index_inj (by omega) ha (by omega) hc h
      exact Or.inl ⟨hac, hbd⟩

/-! ## The distances of rows -/

theorem condensed_index_zero (n j : ℕ) : condensed_index n 0 j = j - 1 := by
  simp [condensed_index]

theorem row_offset_succ_succ (h : i < n) : row_offset (n + 1) (i + 1) = n + row_offset n i := by
  have hhalf := half_le h
  rw [row_offset, row_offset, half_succ, Nat.mul_succ, Nat.succ_mul]
  omega

theorem length_condensed_distances {ρ α : Type} (distance : ρ → ρ → α) (rows : List ρ) :
    (condensed_distances distance rows).length = rows.length * (rows.length - 1) / 2 := by
  induction rows with
  | nil => simp [condensed_distances]
  | cons row rows ih =>
      have hhalf := half_succ (rows.length - 1)
      rw [condensed_distances, List.length_append, List.length_map, ih, List.length_cons,
        Nat.add_sub_cancel]
      grind

/-- **The entry of a pair is the distance of its rows.** -/
theorem getElem?_condensed_distances {ρ α : Type} (distance : ρ → ρ → α) {rows : List ρ}
    (hij : i < j) {row row' : ρ} (hi : rows[i]? = some row) (hj : rows[j]? = some row') :
    (condensed_distances distance rows)[condensed_index rows.length i j]? =
      some (distance row row') := by
  induction rows generalizing i j with
  | nil => exact absurd hi.symm (by simp)
  | cons first rows ih =>
      obtain ⟨j, rfl⟩ := Nat.exists_eq_succ_of_ne_zero (by omega : j ≠ 0)
      have hlt : j < rows.length := by grind
      rw [Nat.succ_eq_add_one, List.getElem?_cons_succ] at hj
      rw [condensed_distances]
      rcases i with _ | i
      · rw [List.getElem?_cons_zero, Option.some.injEq] at hi
        rw [condensed_index_zero, Nat.succ_eq_add_one, Nat.add_sub_cancel,
          List.getElem?_append_left (by rwa [List.length_map]), List.getElem?_map, hj, hi,
          Option.map_some]
      · rw [List.getElem?_cons_succ] at hi
        have hindex : condensed_index (first :: rows).length (i + 1) (j + 1) =
            rows.length + condensed_index rows.length i j := by
          grind [condensed_index_eq, row_offset_succ_succ]
        grind

end CondensedIndex

section TokenPooling

open NearestChain

variable {α : Type} [LinearOrder α] [Inhabited α]
variable {update : α → α → α → ℕ → ℕ → ℕ → α} {n x y i a b : ℕ} {w : Ward α}

/-- A merged cluster is never nearer to a third than the nearer of its parts
was, when the parts are nearest to each other. -/
def Reducible (update : α → α → α → ℕ → ℕ → ℕ → α) : Prop :=
  ∀ d_xi d_yi d_xy nx ny ni, 0 < nx → 0 < ny → 0 < ni → d_xy ≤ d_xi → d_xy ≤ d_yi →
    min d_xi d_yi ≤ update d_xi d_yi d_xy nx ny ni

/-- A cluster that holds rows. -/
def Active (size : List ℕ) (i : ℕ) : Prop := 0 < size.getD i 0

instance (size : List ℕ) : DecidablePred (Active size) := fun _ => Nat.decLt _ _

/-- How far apart two clusters are. -/
def apart (n : ℕ) (distances : List α) (a b : ℕ) : α := distances.getD (pair_index n a b) default

theorem Active.lt {size : List ℕ} (h : Active size i) : i < size.length := by
  by_contra hle
  rw [Active, List.getD_eq_getElem?_getD, List.getElem?_eq_none (by omega)] at h
  exact absurd h (Nat.lt_irrefl 0)

omit [LinearOrder α] in
theorem apart_comm (n : ℕ) (distances : List α) (a b : ℕ) :
    apart n distances a b = apart n distances b a := by
  grind [apart, pair_index_comm]

omit [LinearOrder α] in
theorem getElem?_pair_index {distances : List α} (hlen : distances.length = n * (n - 1) / 2)
    (hne : a ≠ b) (ha : a < n) (hb : b < n) :
    distances[pair_index n a b]? = some (apart n distances a b) := by
  have hlt := pair_index_lt hne ha hb
  rw [apart, List.getD_eq_getElem?_getD, List.getElem?_eq_getElem (by omega), Option.getD_some]

theorem getElem?_size {size : List ℕ} (h : i < size.length) : size[i]? = some (size.getD i 0) := by
  grind

/-! ## The search -/

namespace Ward

/-- A cluster other than `x`, with its distance. -/
def Found (n : ℕ) (w : Ward α) (x : ℕ) (best : Option (ℕ × α)) : Prop :=
  ∀ f ∈ best, Active w.size f.1 ∧ f.1 ≠ x ∧ f.2 = apart n w.distances x f.1

theorem nearer_spec (hsize : w.size.length = n) (hdist : w.distances.length = n * (n - 1) / 2)
    (hx : x < n) (hi : i < n) {best : Option (ℕ × α)} (hbest : Found n w x best) :
    ∃ best', nearer n w x best i = some best' ∧ Found n w x best' ∧
      (∀ f ∈ best, ∃ f' ∈ best', f' = f ∨ f'.2 < f.2) ∧
      (Active w.size i → i ≠ x → ∃ f' ∈ best', f'.2 ≤ apart n w.distances x i) := by
  by_cases hskip : w.size.getD i 0 = 0 ∨ i = x
  · refine ⟨best, ?_, hbest, fun f hf => ⟨f, hf, Or.inl rfl⟩, fun hact hne => ?_⟩
    · rw [nearer, getElem?_size (by omega)]
      grind
    rcases hskip with hzero | heq
    · rw [Active, hzero] at hact
      exact absurd hact (Nat.lt_irrefl 0)
    · exact absurd heq hne
  · have hstep : ∀ best', (if best.all fun found => decide (apart n w.distances x i < found.2)
        then some (i, apart n w.distances x i) else best) = best' →
          nearer n w x best i = some best' := by
      have hread := getElem?_pair_index hdist (Ne.symm (not_or.1 hskip).2) hx hi
      rw [nearer, getElem?_size (by omega)]
      grind
    rw [not_or] at hskip
    have hact : Active w.size i := Nat.pos_of_ne_zero hskip.1
    by_cases hcloser : best.all fun found => decide (apart n w.distances x i < found.2)
    · refine ⟨some (i, apart n w.distances x i), hstep _ (if_pos hcloser), ?_, ?_,
        fun _ _ => ⟨_, rfl, le_rfl⟩⟩
      · intro f hf
        grind
      · intro f hf
        obtain rfl : best = some f := hf
        exact ⟨_, rfl, Or.inr (of_decide_eq_true hcloser)⟩
    · refine ⟨best, hstep _ (if_neg hcloser), hbest, fun f hf => ⟨f, hf, Or.inl rfl⟩,
        fun _ _ => ?_⟩
      rcases best with _ | found
      · exact absurd rfl hcloser
      grind

theorem foldlM_nearer (hsize : w.size.length = n)
    (hdist : w.distances.length = n * (n - 1) / 2) (hx : x < n) (clusters : List ℕ)
    (hclusters : ∀ i ∈ clusters, i < n) {best : Option (ℕ × α)} (hbest : Found n w x best) :
    ∃ found, clusters.foldlM (nearer n w x) best = some found ∧ Found n w x found ∧
      (∀ f ∈ best, ∃ f' ∈ found, f' = f ∨ f'.2 < f.2) ∧
      ∀ i ∈ clusters, Active w.size i → i ≠ x → ∃ f ∈ found, f.2 ≤ apart n w.distances x i := by
  induction clusters generalizing best with
  | nil =>
      grind
  | cons i clusters ih =>
      obtain ⟨best', hstep, hbest', hkeep, hnear⟩ :=
        nearer_spec hsize hdist hx (hclusters i List.mem_cons_self) hbest
      grind

/-- **The search finds what is nearest**, an earlier find only if nothing is
nearer. -/
theorem nearest_spec (hsize : w.size.length = n) (hdist : w.distances.length = n * (n - 1) / 2)
    (hx : x < n) {best : Option (ℕ × α)} (hbest : Found n w x best) :
    ∃ found, nearest n w x best = some found ∧ Found n w x found ∧
      (∀ f ∈ best, ∃ f' ∈ found, f' = f ∨ f'.2 < f.2) ∧
      ∀ i, Active w.size i → i ≠ x → ∃ f ∈ found, f.2 ≤ apart n w.distances x i := by
  obtain ⟨found, hfold, hfound, hkeep, hnear⟩ := foldlM_nearer hsize hdist hx (List.range n)
    (fun i hi => List.mem_range.1 hi) hbest
  refine ⟨found, hfold, hfound, hkeep, fun i hact hne => ?_⟩
  exact hnear i (List.mem_range.2 (hsize ▸ hact.lt)) hact hne

/-! ## The merge -/

omit [LinearOrder α] in
theorem dist_set_self {distances : List α} (hlen : distances.length = n * (n - 1) / 2)
    (hne : a ≠ b) (ha : a < n) (hb : b < n) (value : α) :
    apart n (distances.set (pair_index n a b) value) a b = value := by
  have hlt := pair_index_lt hne ha hb
  rw [apart, List.getD_eq_getElem?_getD, List.getElem?_set_self (by omega), Option.getD_some]

omit [LinearOrder α] in
theorem dist_set_ne {c d : ℕ} {distances : List α} (hab : a ≠ b) (ha : a < n) (hb : b < n)
    (hcd : c ≠ d) (hc : c < n) (hd : d < n) (hne : ¬((a = c ∧ b = d) ∨ (a = d ∧ b = c)))
    (value : α) :
    apart n (distances.set (pair_index n a b) value) c d = apart n distances c d := by
  have hindex : pair_index n a b ≠ pair_index n c d :=
    fun h => hne (pair_index_inj hab ha hb hcd hc hd h)
  grind [apart]

/-- What a turn of the update loop leaves of the distances. -/
structure Updated (update : α → α → α → ℕ → ℕ → ℕ → α) (n : ℕ) (size : List ℕ) (x y : ℕ)
    (height : α) (nx ny : ℕ) (clusters : List ℕ) (distances distances' : List α) : Prop where
  length_eq : distances'.length = distances.length
  others : ∀ a b, a < n → b < n → a ≠ b → a ≠ y → b ≠ y →
    apart n distances' a b = apart n distances a b
  updated : ∀ i ∈ clusters, Active size i → i ≠ y → apart n distances' i y =
    update (apart n distances i x) (apart n distances i y) height nx ny (size.getD i 0)
  later : ∀ i < n, i ∉ clusters → i ≠ y → apart n distances' i y = apart n distances i y

omit [LinearOrder α] in
theorem update_distance_spec {size : List ℕ} {distances : List α} {height : α} {nx ny : ℕ}
    (hsize : size.length = n) (hlen : distances.length = n * (n - 1) / 2) (hx : x < n)
    (hy : y < n) (hgone : ¬Active size x) (hi : i < n) :
    ∃ distances', update_distance update n size x y height nx ny distances i = some distances' ∧
      Updated update n size x y height nx ny [i] distances distances' := by
  rw [update_distance, getElem?_size (by omega)]
  by_cases hskip : size.getD i 0 = 0 ∨ i = y
  · refine ⟨distances, ?_, rfl, fun _ _ _ _ _ _ _ => rfl, fun j hj hact hne => ?_,
      fun _ _ _ _ => rfl⟩
    · grind
    · obtain rfl := List.mem_singleton.1 hj
      rcases hskip with hzero | heq
      · rw [Active, hzero] at hact
        exact absurd hact (Nat.lt_irrefl 0)
      · exact absurd heq hne
  · have hix : i ≠ x := by
      rintro rfl
      exact hgone (Nat.pos_of_ne_zero (not_or.1 hskip).1)
    have hiy : i ≠ y := (not_or.1 hskip).2
    have hreadx := getElem?_pair_index hlen hix hi hx
    have hready := getElem?_pair_index hlen hiy hi hy
    refine ⟨distances.set (pair_index n i y) (update (apart n distances i x)
      (apart n distances i y) height nx ny (size.getD i 0)), ?_, List.length_set,
      fun a b ha hb hab hay hby => ?_,
      fun j hj _ _ => ?_, fun j hj hnot hjy => ?_⟩
    · grind
    · exact dist_set_ne hiy hi hy hab ha hb (by omega) _
    · obtain rfl := List.mem_singleton.1 hj
      exact dist_set_self hlen hiy hi hy _
    grind [dist_set_ne]

omit [LinearOrder α] in
/-- **The loop gives each cluster its distance to the merged one**, and leaves
the distances of the others. -/
theorem foldlM_update {size : List ℕ} {distances : List α} {height : α} {nx ny : ℕ}
    (hsize : size.length = n) (hlen : distances.length = n * (n - 1) / 2) (hx : x < n)
    (hy : y < n) (hxy : x ≠ y) (hgone : ¬Active size x) (clusters : List ℕ)
    (hclusters : ∀ i ∈ clusters, i < n) (hnodup : clusters.Nodup) :
    ∃ distances',
      clusters.foldlM (update_distance update n size x y height nx ny) distances =
        some distances' ∧
      Updated update n size x y height nx ny clusters distances distances' := by
  induction clusters generalizing distances with
  | nil =>
      exact ⟨distances, rfl, rfl, fun _ _ _ _ _ _ _ => rfl,
        fun i hi => absurd hi List.not_mem_nil, fun _ _ _ _ => rfl⟩
  | cons i clusters ih =>
      have hi := hclusters i List.mem_cons_self
      obtain ⟨hnot, hnodup'⟩ := List.nodup_cons.1 hnodup
      obtain ⟨distances₁, hstep, hone⟩ :=
        @update_distance_spec _ _ update _ _ _ _ _ _ height nx ny hsize hlen hx hy hgone hi
      obtain ⟨distances', hfold, hrest⟩ := ih (hone.length_eq.trans hlen)
        (fun j hj => hclusters j (List.mem_cons_of_mem _ hj)) hnodup'
      refine ⟨distances', by grind,
        hrest.length_eq.trans hone.length_eq, fun a b ha hb hab hay hby => ?_,
        fun j hj hact hjy => ?_, fun j hj hnotin hjy => ?_⟩
      · rw [hrest.others a b ha hb hab hay hby, hone.others a b ha hb hab hay hby]
      · rcases List.mem_cons.1 hj with rfl | hj'
        · rw [hrest.later j hi hnot hjy]
          exact hone.updated j (List.mem_singleton_self j) hact hjy
        · have hjn := hclusters j hj
          have hji : j ∉ [i] := by grind
          have hjx : j ≠ x := by
            rintro rfl
            exact hgone hact
          rw [hrest.updated j hj' hact hjy, hone.others j x hjn hx hjx hjy hxy,
            hone.later j hjn hji hjy]
      · rw [List.mem_cons, not_or] at hnotin
        rw [hrest.later j hj hnotin.2 hjy, hone.later j hj (by simpa using hnotin.1) hjy]

/-! ## What a turn keeps -/

/-- The clusters that hold rows. -/
def active_clusters (size : List ℕ) : Finset ℕ :=
  (Finset.range size.length).filter (Active size)

theorem mem_active_clusters {size : List ℕ} : i ∈ active_clusters size ↔ Active size i := by
  rw [active_clusters, Finset.mem_filter, Finset.mem_range, and_iff_right_of_imp]
  exact Active.lt

/-- Two clusters were merged. -/
def Merged (merges : List (α × ℕ × ℕ)) (a b : ℕ) : Prop := ∃ m ∈ merges, m.2 = (a, b)

/-- What holds after every turn. -/
structure Sound (n : ℕ) (w : Ward α) : Prop where
  size_length : w.size.length = n
  distances_length : w.distances.length = n * (n - 1) / 2
  descends : Descends (apart n w.distances) (Active w.size) w.chain
  /-- Each merge leaves one cluster fewer. -/
  active_card : (active_clusters w.size).card + w.merges.length = n
  /-- Of two clusters that were merged, the lower one is gone. -/
  merged : ∀ m ∈ w.merges, m.2.1 < m.2.2 ∧ m.2.2 < n ∧ ¬Active w.size m.2.1
  /-- A cluster that is gone is not merged again. -/
  gone : w.merges.Pairwise fun m m' => m.2.1 ≠ m'.2.1 ∧ m.2.1 ≠ m'.2.2
  /-- Every row was merged into some cluster. -/
  connected : ∀ i < n, ∃ c, Active w.size c ∧ Relation.EqvGen (Merged w.merges) i c

theorem active_merge {size : List ℕ} {low high : ℕ} (hlow : Active size low)
    (hhigh : Active size high) (hne : low ≠ high) :
    Active ((size.set low 0).set high (size.getD low 0 + size.getD high 0)) i ↔
      Active size i ∧ i ≠ low := by
  have hlen := hhigh.lt
  rw [Active, List.getD_eq_getElem?_getD]
  by_cases hi : i = high
  · subst hi
    rw [List.getElem?_set_self (by rw [List.length_set]; exact hlen), Option.getD_some]
    refine iff_of_true ?_ ⟨hhigh, hne.symm⟩
    rw [Active] at hlow
    omega
  · rw [List.getElem?_set_ne (Ne.symm hi)]
    by_cases hi' : i = low
    · grind
    · rw [List.getElem?_set_ne (Ne.symm hi'), ← List.getD_eq_getElem?_getD, ← Active,
        and_iff_left hi']

omit [LinearOrder α] [Inhabited α] in
theorem connected_mono {merges merges' : List (α × ℕ × ℕ)} (h : ∀ m ∈ merges, m ∈ merges')
    (hab : Relation.EqvGen (Merged merges) a b) : Relation.EqvGen (Merged merges') a b := by
  refine Relation.EqvGen.mono (fun c d hcd => ?_) a b hab
  obtain ⟨m, hm, heq⟩ := hcd
  exact ⟨m, h m hm, heq⟩

/-- The merges made so far, and at most one more, of two clusters that hold
rows. -/
def Grows (w w' : Ward α) : Prop :=
  w'.merges = w.merges ∨ ∃ height x y, w'.merges = w.merges ++ [(height, x, y)] ∧ x < y ∧
    Active w.size x ∧ Active w.size y

/-- **A merge of nearest neighbours** keeps what holds, and what is left of the
chain. -/
theorem Sound.merge (hupdate : Reducible update) (h : Sound n w) {rest : List ℕ}
    (hchain : w.chain = x :: y :: rest)
    (hnear : ∀ i, Active w.size i → i ≠ x → apart n w.distances x y ≤ apart n w.distances x i) :
    ∃ w', w.merge update n x y (apart n w.distances x y) = some w' ∧ Sound n w' ∧
      w'.chain = rest ∧ Grows w w' ∧ w'.merges.length = w.merges.length + 1 := by
  have hdescends := h.descends
  rw [hchain] at hdescends
  have hactx : Active w.size x := hdescends.active_of_mem x (by simp)
  have hacty : Active w.size y := hdescends.active_of_mem y (by simp)
  have hxy := hdescends.ne
  have hnodup := hdescends.nodup (apart_comm n w.distances)
  have hnear' : ∀ i, Active w.size i → i ≠ y →
      apart n w.distances x y ≤ apart n w.distances y i := fun i hi hne => by
    rw [apart_comm n w.distances x y]
    exact hdescends.nearest hi hne
  -- from here on only which is lower matters
  obtain ⟨low, high, hlow, hhigh, hlt, hparts⟩ : ∃ low high, min x y = low ∧ max x y = high ∧
      low < high ∧ ((x = low ∧ y = high) ∨ (x = high ∧ y = low)) := by grind
  have hactlow : Active w.size low := by grind
  have hacthigh : Active w.size high := by grind
  have hfarlow : ∀ i, Active w.size i → i ≠ low → i ≠ high →
      apart n w.distances x y ≤ apart n w.distances i low ∧
        apart n w.distances x y ≤ apart n w.distances i high := by
    intro i hi hilow hihigh
    rw [apart_comm n w.distances i low, apart_comm n w.distances i high]
    grind
  set size := (w.size.set low 0).set high (w.size.getD low 0 + w.size.getD high 0) with hsize
  have hact : ∀ i, Active size i ↔ Active w.size i ∧ i ≠ low := fun i =>
    active_merge hactlow hacthigh (by omega)
  have hsizelen : size.length = n := by
    rw [hsize, List.length_set, List.length_set, h.size_length]
  have hlown : low < n := h.size_length ▸ hactlow.lt
  have hhighn : high < n := h.size_length ▸ hacthigh.lt
  obtain ⟨distances, hfold, hupd⟩ := @foldlM_update _ _ update _ _ _ _ _
    (apart n w.distances x y) (w.size.getD low 0) (w.size.getD high 0) hsizelen h.distances_length
    hlown hhighn (by omega) (fun hlow => ((hact low).1 hlow).2 rfl) (List.range n)
    (fun i hi => List.mem_range.1 hi) List.nodup_range
  refine ⟨⟨size, distances, w.chain.drop 2,
    w.merges ++ [(apart n w.distances x y, low, high)]⟩, ?_, ⟨hsizelen,
    hupd.length_eq.trans h.distances_length, ?_, ?_, ?_, ?_, ?_⟩, by rw [hchain]; rfl,
    Or.inr ⟨_, low, high, rfl, hlt, hactlow, hacthigh⟩,
    by simp⟩
  · grind [Ward.merge]
  · rw [hchain, List.drop_succ_cons, List.drop_succ_cons, List.drop_zero]
    have hold : ∀ c ∈ rest, Active w.size c ∧ c ≠ low ∧ c ≠ high ∧ c < n := by
      intro c hc
      have hactc : Active w.size c := hdescends.active_of_mem c (by simp [hc])
      rw [List.nodup_cons, List.nodup_cons, List.mem_cons, not_or] at hnodup
      have hcx : c ≠ x := fun heq => hnodup.1.2 (heq ▸ hc)
      have hcy : c ≠ y := fun heq => hnodup.2.1 (heq ▸ hc)
      exact ⟨hactc, by omega, by omega, h.size_length ▸ hactc.lt⟩
    refine hdescends.tail.tail.transfer (fun c hc => ?_) (fun a ha b hb hab => ?_)
      fun c hc i hi hic => ?_
    · grind
    · grind [Updated.others]
    · obtain ⟨hactc, hclow, hchigh, hcn⟩ := hold c hc
      obtain ⟨hacti, hilow⟩ := (hact i).1 hi
      have hin : i < n := h.size_length ▸ hacti.lt
      by_cases hihigh : i = high
      · -- the merged cluster is no nearer than the nearer of its parts
        subst hihigh
        have hdist := hupd.updated c (List.mem_range.2 hcn) ((hact c).2 ⟨hactc, hclow⟩) hchigh
        obtain ⟨hl, hh⟩ := hfarlow c hactc hclow hchigh
        have hred := hupdate _ _ _ (w.size.getD low 0) (w.size.getD i 0) (size.getD c 0)
          hactlow hacthigh ((hact c).2 ⟨hactc, hclow⟩) hl hh
        grind
      · exact ⟨i, hacti, hic, (hupd.others c i hcn hin (Ne.symm hic) hchigh hihigh).ge⟩
  · have herase : active_clusters size = (active_clusters w.size).erase low := by
      ext i
      rw [mem_active_clusters, Finset.mem_erase, mem_active_clusters, hact, and_comm]
    grind [mem_active_clusters, active_card]
  · intro m hm
    rcases List.mem_append.1 hm with hm | hm
    · obtain ⟨hless, hn, hgone⟩ := h.merged m hm
      grind
    grind
  · refine List.pairwise_append.2 ⟨h.gone, List.pairwise_singleton _ _, fun m hm m' hm' => ?_⟩
    have hgone := (h.merged m hm).2.2
    grind
  · intro i hi
    obtain ⟨c, hactc, hpath⟩ := h.connected i hi
    have hpath' := connected_mono (fun m hm => List.mem_append_left
      [(apart n w.distances x y, low, high)] hm) hpath
    by_cases hc : c = low
    · refine ⟨high, (hact high).2 ⟨hacthigh, by omega⟩, hpath'.trans _ _ _ (.rel _ _ ?_)⟩
      exact ⟨_, List.mem_append_right _ (List.mem_singleton_self _), by rw [hc]⟩
    grind

/-! ## Turns -/

/-- How many turns are left at most: a merge takes two clusters off the chain. -/
def turns_left (n : ℕ) (w : Ward α) : ℕ := 3 * (n - 1 - w.merges.length) + (n - w.chain.length)

theorem Sound.chain_active (h : Sound n w) : ∀ c ∈ w.chain, Active w.size c :=
  h.descends.active_of_mem

theorem Sound.chain_nodup (h : Sound n w) : w.chain.Nodup :=
  h.descends.nodup (apart_comm n w.distances)

theorem Sound.chain_length_le (h : Sound n w) : w.chain.length ≤ n := by
  have hsub : w.chain.toFinset ⊆ Finset.range n := fun c hc => by
    rw [Finset.mem_range, ← h.size_length]
    exact (h.chain_active c (List.mem_toFinset.1 hc)).lt
  have hcard := Finset.card_le_card hsub
  rwa [List.toFinset_card_of_nodup h.chain_nodup, Finset.card_range] at hcard

theorem Sound.exists_active_ne (h : Sound n w) (hleft : w.merges.length < n - 1) (x : ℕ) :
    ∃ i, Active w.size i ∧ i ≠ x := by
  have hcard := h.active_card
  obtain ⟨i, hi, hne⟩ := Finset.exists_mem_ne (show 1 < (active_clusters w.size).card by omega) x
  exact ⟨i, mem_active_clusters.1 hi, hne⟩

theorem Sound.start_chain (h : Sound n w) (hleft : w.merges.length < n - 1) :
    ∃ w', w.start_chain = some w' ∧ Sound n w' ∧ w'.merges = w.merges ∧ w'.size = w.size ∧
      w'.chain ≠ [] ∧ w.chain.length ≤ w'.chain.length := by
  rw [Ward.start_chain]
  by_cases hempty : w.chain.isEmpty
  · rw [if_pos hempty]
    obtain ⟨i, hi, -⟩ := h.exists_active_ne hleft 0
    have hsome : ((w.size.findIdx? fun s => decide (0 < s))).isSome := by
      have hlt := hi.lt
      rw [Active, List.getD_eq_getElem?_getD, List.getElem?_eq_getElem hlt] at hi
      rw [List.findIdx?_isSome, List.any_eq_true]
      exact ⟨w.size[i], List.getElem_mem hlt, decide_eq_true hi⟩
    obtain ⟨first, hfirst⟩ := Option.isSome_iff_exists.1 hsome
    obtain ⟨hlt, hpos, -⟩ := List.findIdx?_eq_some_iff_getElem.1 hfirst
    have hact : Active w.size first := by
      rw [Active, List.getD_eq_getElem?_getD, List.getElem?_eq_getElem hlt]
      exact of_decide_eq_true hpos
    rw [List.isEmpty_iff] at hempty
    refine ⟨{ w with chain := [first] }, by rw [hfirst]; rfl,
      { h with descends := .single hact }, rfl, rfl, List.cons_ne_nil _ _, ?_⟩
    rw [hempty]
    exact Nat.zero_le _
  grind

/-- **A turn of the loop succeeds**: it puts what is nearest on the chain, or
merges. -/
theorem Sound.walk (hupdate : Reducible update) (h : Sound n w) (hleft : w.merges.length < n - 1)
    (hchain : w.chain ≠ []) :
    ∃ w', w.walk update n = some w' ∧ Sound n w' ∧ Grows w w' ∧
      ((w'.merges = w.merges ∧ w'.chain.length = w.chain.length + 1) ∨
        (w'.merges.length = w.merges.length + 1 ∧ w'.chain.length + 2 = w.chain.length)) := by
  obtain ⟨x, tail, hx⟩ := List.exists_cons_of_ne_nil hchain
  have hactx : Active w.size x := h.chain_active x (by rw [hx]; exact List.mem_cons_self)
  have hxn : x < n := h.size_length ▸ hactx.lt
  rcases tail with _ | ⟨y, rest⟩
  · -- a chain of one cluster goes on with whatever is nearest
    obtain ⟨found, hsearch, hfound, -, hnear⟩ := nearest_spec h.size_length h.distances_length hxn
      (show Found n w x none from fun f hf => absurd hf (Option.not_mem_none f))
    obtain ⟨i, hi, hne⟩ := h.exists_active_ne hleft x
    obtain ⟨f, rfl, -⟩ := hnear i hi hne
    obtain ⟨hact, hfx, hfd⟩ := hfound f rfl
    refine ⟨{ w with chain := [f.1, x] }, ?_, { h with descends := ?_ }, Or.inl rfl,
      Or.inl ⟨rfl, ?_⟩⟩
    · simp only [Ward.walk, hx, hsearch, Option.bind_eq_bind, Option.bind_some]
      rfl
    · refine .push (.single hactx) hact hfx (fun j hj hjx => ?_) fun z hz => ?_
      · grind
      grind
    · rw [hx]
      rfl
  · have hdescends := h.descends
    rw [hx] at hdescends
    have hacty : Active w.size y := hdescends.active_of_mem y (by simp)
    have hyn : y < n := h.size_length ▸ hacty.lt
    have hread := getElem?_pair_index h.distances_length hdescends.ne hxn hyn
    obtain ⟨found, hsearch, hfound, hkeep, hnear⟩ :=
      nearest_spec h.size_length h.distances_length hxn
        (show Found n w x (some (y, apart n w.distances x y)) from fun f hf => by
          obtain rfl := Option.some.inj hf
          exact ⟨hacty, hdescends.ne.symm, rfl⟩)
    obtain ⟨f, rfl, hf⟩ := hkeep _ rfl
    obtain ⟨hact, hfx, hfd⟩ := hfound f rfl
    have hleast : ∀ i, Active w.size i → i ≠ x → f.2 ≤ apart n w.distances x i :=
      fun i hi hne => by grind
    have hwalk : w.walk update n = if f.1 = y then w.merge update n x f.1 f.2
        else some { w with chain := f.1 :: x :: y :: rest } := by
      simp only [Ward.walk, hx, hread, hsearch, Option.bind_eq_bind, Option.bind_some]
      rfl
    rw [hwalk]
    by_cases hfy : f.1 = y
    · rw [if_pos hfy, hfy]
      rw [hfy] at hfd
      rw [hfd] at hleast
      rw [hfd]
      obtain ⟨w', hmerge, hsound, hrest, hgrows, hlen⟩ := h.merge hupdate hx hleast
      grind
    · rw [if_neg hfy]
      have hlt : f.2 < apart n w.distances x y := by grind
      refine ⟨_, rfl, { h with descends := ?_ }, Or.inl rfl, Or.inl ⟨rfl, ?_⟩⟩
      · rw [hfd] at hlt hleast
        exact hdescends.push_nearer (apart_comm n w.distances) hact hfx hleast hlt
      · rw [hx]
        rfl

/-- **A turn keeps what holds, and brings the end nearer.** -/
theorem Sound.turn (hupdate : Reducible update) (h : Sound n w)
    (hleft : w.merges.length < n - 1) :
    ∃ w', w.turn update n = some w' ∧ Sound n w' ∧ Grows w w' ∧
      turns_left n w' < turns_left n w ∧ w'.merges.length ≤ w.merges.length + 1 := by
  obtain ⟨w₁, hstart, hsound₁, hmerges₁, hsize₁, hchain₁, hlen₁⟩ := h.start_chain hleft
  rw [← hmerges₁] at hleft
  obtain ⟨w', hwalk, hsound', hgrows, hstep⟩ := hsound₁.walk hupdate hleft hchain₁
  rw [Grows, hmerges₁, hsize₁] at hgrows
  refine ⟨w', by rw [Ward.turn, hstart, Option.bind_some, hwalk], hsound', hgrows, ?_⟩
  have hle := hsound'.chain_length_le
  rw [turns_left, turns_left, ← hmerges₁]
  -- a step onto the chain leaves one place less, a merge one merge fewer
  grind

theorem sound_new {distances : List α} (h : distances.length = n * (n - 1) / 2) :
    Sound n (Ward.new n distances) := by
  have hact : ∀ i, Active (List.replicate n 1) i ↔ i < n := by
    intro i
    rw [Active, List.getD_eq_getElem?_getD, List.getElem?_replicate]
    grind
  have hall : active_clusters (List.replicate n 1) = Finset.range n := by
    ext i
    rw [mem_active_clusters, hact, Finset.mem_range]
  refine ⟨List.length_replicate, h, .nil, ?_, fun m hm => absurd hm List.not_mem_nil,
    List.Pairwise.nil, fun i hi => ⟨i, (hact i).2 hi, .refl i⟩⟩
  rw [Ward.new, hall, Finset.card_range, List.length_nil, Nat.add_zero]

/-- The states that turns lead to before the last merge. -/
inductive Reached (update : α → α → α → ℕ → ℕ → ℕ → α) (n : ℕ) (distances : List α) :
    Ward α → Prop
  | start : Reached update n distances (Ward.new n distances)
  | turn {w w' : Ward α} : Reached update n distances w → w.merges.length < n - 1 →
      w.turn update n = some w' → Reached update n distances w'

/-- **What holds at every turn.** -/
theorem Reached.sound {distances : List α} (hupdate : Reducible update)
    (hlen : distances.length = n * (n - 1) / 2) (h : Reached update n distances w) :
    Sound n w := by
  induction h with
  | start => exact sound_new hlen
  | turn _ hleft hturn ih =>
      obtain ⟨w₁, hturn₁, hsound, -⟩ := ih.turn hupdate hleft
      grind

/-- **The run ends with all merges made.** -/
theorem Reached.run {distances : List α} (hupdate : Reducible update)
    (hlen : distances.length = n * (n - 1) / 2) {turns : ℕ} (h : Reached update n distances w)
    (hmerges : w.merges.length ≤ n - 1) (hturns : turns_left n w ≤ turns) :
    ∃ w', w.run update n turns = some w' ∧ Reached update n distances w' ∧
      w'.merges.length = n - 1 := by
  induction turns generalizing w with
  | zero =>
      have hdone : w.merges.length = n - 1 := by
        rw [turns_left] at hturns
        omega
      exact ⟨w, by rw [Ward.run, if_pos hdone], h, hdone⟩
  | succ turns ih =>
      rw [Ward.run]
      by_cases hdone : w.merges.length = n - 1
      · grind
      · rw [if_neg hdone]
        obtain ⟨w₁, hturn, -, -, hless, hone⟩ := (h.sound hupdate hlen).turn hupdate (by omega)
        rw [hturn, Option.bind_some]
        exact ih (h.turn (by omega) hturn) (by omega) (by omega)

/-- **All merges are made in time.** -/
theorem run_new {distances : List α} (hupdate : Reducible update)
    (hlen : distances.length = n * (n - 1) / 2) :
    ∃ w, (Ward.new n distances).run update n (4 * n) = some w ∧ Reached update n distances w ∧
      w.merges.length = n - 1 := by
  refine Reached.start.run hupdate hlen (Nat.zero_le _) ?_
  rw [turns_left, Ward.new, List.length_nil]
  omega

end Ward

end TokenPooling

end Laurus
