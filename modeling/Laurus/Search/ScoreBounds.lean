import Laurus.Search.Helpers.Scorer
import Laurus.Search.Model.Scorer
import Mathlib.Algebra.Order.Field.Rat

/-!
# Score upper bounds are sound

`ScoreBounds` is what a search may rely on of a scorer: its bounds are above the
scores of the postings they are for, and none is negative. A BM25 scorer has
it of sound tables, and compounds have it when their clauses have
(`ScoreBounds.boolean`, `ScoreBounds.dis_max`), whichever of them match a document.
-/

namespace Laurus

variable {𝕜 : Type} [Field 𝕜] [LinearOrder 𝕜]

/-- The bounds of a scorer hold for postings: `postings d` is the term
frequency of the document `d`, when the scorer is asked about it. -/
structure ScoreBounds (s : Scorer 𝕜) (postings : ℕ → Option ℕ) : Prop where
  score_nonneg : ∀ d term_freq, postings d = some term_freq → 0 ≤ s.score d term_freq none
  max_nonneg : 0 ≤ s.max_score
  suffix_nonneg : ∀ p, 0 ≤ s.block_max_score_at p
  block_nonneg : ∀ p, 0 ≤ s.current_block_max_score p
  max : ∀ d term_freq, postings d = some term_freq → s.score d term_freq none ≤ s.max_score
  /-- From the cursor `p` on. -/
  suffix : ∀ p d term_freq, postings d = some term_freq → p ≤ d →
    s.score d term_freq none ≤ s.block_max_score_at p
  /-- From the cursor up to the boundary, and at the cursor in any case. -/
  block : ∀ p d term_freq, postings d = some term_freq → p ≤ d →
    (d = p ∨ ∃ boundary, s.next_block_boundary p = some boundary ∧ d < boundary) →
    s.score d term_freq none ≤ s.current_block_max_score p

/-- Without block bounds of its own a scorer has its greatest score. -/
theorem ScoreBounds.of_max_score {score : ℕ → 𝕜 → Option 𝕜 → 𝕜} {max_score : 𝕜}
    {postings : ℕ → Option ℕ} (hmax : 0 ≤ max_score)
    (hscore : ∀ d term_freq, postings d = some term_freq →
      0 ≤ score d term_freq none ∧ score d term_freq none ≤ max_score) :
    ScoreBounds (Scorer.of_max_score score max_score) postings where
  score_nonneg d term_freq h := (hscore d term_freq h).1
  max_nonneg := hmax
  suffix_nonneg _ := hmax
  block_nonneg _ := hmax
  max d term_freq h := (hscore d term_freq h).2
  suffix _ d term_freq h _ := (hscore d term_freq h).2
  block _ d term_freq h _ _ := (hscore d term_freq h).2

variable [IsStrictOrderedRing 𝕜]

/-! ## Leaves -/

namespace BM25Scorer

variable {s : BM25Scorer 𝕜} {D : Finset ℕ} {term_freqs : ℕ → ℕ} {p d : ℕ}

theorem Sound.component_nonneg (h : s.Sound D term_freqs) (d term_freq : ℕ) :
    0 ≤ s.component d term_freq := by
  have hk := h.k1_nonneg
  rw [component, tf]
  split
  · exact le_rfl
  · have hfreq : (0 : 𝕜) ≤ term_freq := Nat.cast_nonneg _
    have hnorm : 0 ≤ s.k1 * s.norm_factor (s.field_len d none) := mul_nonneg hk h.norm_nonneg
    exact div_nonneg (mul_nonneg hfreq (by linarith)) (by linarith)

theorem Sound.score_nonneg (h : s.Sound D term_freqs) (d term_freq : ℕ) :
    0 ≤ s.score d term_freq none := by
  by_cases habsent : s.doc_freq = 0 ∨ s.total_docs = 0
  · rw [score_of_absent s d _ habsent]
  · rw [score_eq s d _ habsent]
    exact mul_nonneg h.weight_nonneg (h.component_nonneg d term_freq)

/-- **The suffix bound holds in the block of `p` too**, before `p` as after. -/
theorem Sound.score_le_of_same_block (h : s.Sound D term_freqs) (hd : d ∈ D)
    (hblock : s.partition_point d = s.partition_point p) :
    s.score d (term_freqs d) none ≤ s.block_max_score_at p := by
  have hle := h.score_le_block_max_score_at hd (Nat.le_refl d)
  rw [block_max_score_at, bound_at] at hle ⊢
  rwa [hblock] at hle

theorem Sound.score_le_current_at (h : s.Sound D term_freqs) (hd : d ∈ D) :
    s.score d (term_freqs d) none ≤ s.current_block_max_score d := by
  refine h.score_le_bound_at hd fun hblocks hdefault => ?_
  obtain ⟨block, hfind, hle⟩ := h.block_bound hblocks hdefault d hd
  have hin : ∀ b, s.block_max[s.block_max.findIdx fun b => d ≤ b.last_doc_id]? = some b →
      d ≤ b.last_doc_id := by grind
  refine ⟨block.max_factor, ?_, hle⟩
  rw [List.getElem?_map, partition_point, block_of_le (Nat.le_refl d) hfind hin]
  rfl

theorem Sound.bounds (h : s.Sound D term_freqs) {postings : ℕ → Option ℕ}
    (hpostings : ∀ d term_freq, postings d = some term_freq →
      d ∈ D ∧ term_freq = term_freqs d) : ScoreBounds s.scorer postings where
  score_nonneg d term_freq _ := h.score_nonneg d term_freq
  max_nonneg := h.max_score_nonneg
  suffix_nonneg p := h.block_max_score_at_nonneg p
  block_nonneg p := h.current_block_max_score_nonneg p
  max d term_freq hd := by
    obtain ⟨hmem, rfl⟩ := hpostings d term_freq hd
    exact h.score_le_max_score hmem
  suffix p d term_freq hd hpd := by
    obtain ⟨hmem, rfl⟩ := hpostings d term_freq hd
    exact h.score_le_block_max_score_at hmem hpd
  block p d term_freq hd hpd hbefore := by
    obtain ⟨hmem, rfl⟩ := hpostings d term_freq hd
    rcases hbefore with rfl | ⟨boundary, hboundary, hlt⟩
    · exact h.score_le_current_at hmem
    · refine h.score_le_current_block_max_score hmem hpd fun boundary' hboundary' => ?_
      obtain rfl := Option.some.inj (hboundary.symm.trans hboundary')
      exact hlt

end BM25Scorer

/-! ## Sums of clauses -/

/-- The bounds of every clause hold for what its matcher matches. -/
def ClauseBounds (clauses : List (ScorerClause 𝕜)) : Prop :=
  ∀ clause ∈ clauses, ScoreBounds clause.scorer clause.matched

namespace BooleanScorer

variable {s : BooleanScorer 𝕜} {clauses : List (ScorerClause 𝕜)}

/-- What a clause adds to the score of a document. -/
def added (clause : ScorerClause 𝕜) (d : ℕ) : 𝕜 :=
  (clause.matched d).elim 0 fun term_freq => clause.scorer.score d term_freq none

omit [IsStrictOrderedRing 𝕜] [LinearOrder 𝕜] in
theorem score_eq_sum (s : BooleanScorer 𝕜) (d : ℕ) :
    s.score d = (s.clauses.map fun clause => added clause d).sum * s.boost := by
  have hfold : ∀ (clauses : List (ScorerClause 𝕜)) (total : 𝕜),
      clauses.foldl (score_clause d) total = total + (clauses.map fun clause => added clause d).sum := by
    intro clauses
    induction clauses with
    | nil => intro total; simp
    | cons clause clauses ih =>
        intro total
        rw [List.foldl_cons, ih, List.map_cons, List.sum_cons, ← add_assoc, added, score_clause]
        grind
  rw [score, hfold, zero_add]

omit [IsStrictOrderedRing 𝕜] [LinearOrder 𝕜] in
theorem sum_of_eq_sum (s : BooleanScorer 𝕜) (bound : Scorer 𝕜 → 𝕜) :
    s.sum_of bound = (s.clauses.map fun clause => bound clause.scorer).sum * s.boost := by
  have hfold : ∀ (clauses : List (ScorerClause 𝕜)) (total : 𝕜),
      clauses.foldl (fun total clause => total + bound clause.scorer) total =
      total + (clauses.map fun clause => bound clause.scorer).sum := by
    intro clauses
    induction clauses with
    | nil => intro total; simp
    | cons clause clauses ih =>
        grind
  rw [sum_of, hfold, zero_add]

theorem sum_of_nonneg (hboost : 0 ≤ s.boost) {bound : Scorer 𝕜 → 𝕜}
    (h : ∀ clause ∈ s.clauses, 0 ≤ bound clause.scorer) : 0 ≤ s.sum_of bound := by
  rw [sum_of_eq_sum]
  refine mul_nonneg (List.sum_nonneg fun x hx => ?_) hboost
  grind

/-- **A sum of bounds bounds the sum of what the clauses add.** -/
theorem score_le_sum_of (hboost : 0 ≤ s.boost) {bound : Scorer 𝕜 → 𝕜} {d : ℕ}
    (h : ∀ clause ∈ s.clauses, 0 ≤ bound clause.scorer ∧ ∀ term_freq,
      clause.matched d = some term_freq →
        clause.scorer.score d term_freq none ≤ bound clause.scorer) :
    s.score d ≤ s.sum_of bound := by
  rw [score_eq_sum, sum_of_eq_sum]
  refine mul_le_mul_of_nonneg_right (List.sum_le_sum fun clause hclause => ?_) hboost
  obtain ⟨hnonneg, hle⟩ := h clause hclause
  rw [added]
  rcases hmatched : clause.matched d with _ | term_freq
  · exact hnonneg
  · exact hle term_freq hmatched

omit [IsStrictOrderedRing 𝕜] [Field 𝕜] [LinearOrder 𝕜] in
theorem boundary_loop_spec {p : ℕ} {boundary : ℕ} {acc : Option ℕ}
    (h : boundary_loop p clauses acc = some boundary) :
    (∀ m, acc = some m → boundary ≤ m) ∧
      ∀ clause ∈ clauses, ∃ b, clause.scorer.next_block_boundary p = some b ∧ boundary ≤ b := by
  induction clauses generalizing acc with
  | nil =>
      rw [boundary_loop] at h
      grind
  | cons clause clauses ih =>
      rw [boundary_loop] at h
      rcases hb : clause.scorer.next_block_boundary p with _ | b
      · rw [hb] at h
        cases h
      · rw [hb] at h
        obtain ⟨hacc, hrest⟩ := ih h
        have hmin := hacc _ rfl
        refine ⟨fun m hm => ?_, fun other hother => ?_⟩
        · grind
        · rcases List.mem_cons.1 hother with rfl | hother
          · refine ⟨b, hb, ?_⟩
            rcases acc with _ | m
            · exact hmin
            grind
          · exact hrest other hother

/-- **The bounds of a sum hold**, whichever clauses match. -/
theorem bounds (hboost : 0 ≤ s.boost) (h : ClauseBounds s.clauses) (postings : ℕ → Option ℕ) :
    ScoreBounds s.scorer postings where
  score_nonneg d _ _ := by
    show 0 ≤ s.score d
    rw [score_eq_sum]
    refine mul_nonneg (List.sum_nonneg fun x hx => ?_) hboost
    obtain ⟨clause, hclause, rfl⟩ := List.mem_map.1 hx
    rw [added]
    rcases hmatched : clause.matched d with _ | term_freq
    · exact le_rfl
    · exact (h clause hclause).score_nonneg d term_freq hmatched
  max_nonneg := sum_of_nonneg hboost fun clause hclause => (h clause hclause).max_nonneg
  suffix_nonneg p := by
    refine @sum_of_nonneg _ _ _ _ s hboost (fun scorer => scorer.block_max_score_at p) ?_
    exact fun clause hclause => (h clause hclause).suffix_nonneg p
  block_nonneg p := by
    refine @sum_of_nonneg _ _ _ _ s hboost (fun scorer => scorer.current_block_max_score p) ?_
    exact fun clause hclause => (h clause hclause).block_nonneg p
  max d _ _ := score_le_sum_of hboost fun clause hclause =>
    ⟨(h clause hclause).max_nonneg, fun term_freq => (h clause hclause).max d term_freq⟩
  suffix p d _ _ hpd := by
    refine @score_le_sum_of _ _ _ _ s hboost (fun scorer => scorer.block_max_score_at p) d ?_
    exact fun clause hclause => ⟨(h clause hclause).suffix_nonneg p, fun term_freq hmatched =>
      (h clause hclause).suffix p d term_freq hmatched hpd⟩
  block p d _ _ hpd hbefore := by
    refine @score_le_sum_of _ _ _ _ s hboost (fun scorer => scorer.current_block_max_score p) d
      fun clause hclause => ⟨(h clause hclause).block_nonneg p, fun term_freq hmatched =>
        (h clause hclause).block p d term_freq hmatched hpd ?_⟩
    rcases hbefore with rfl | ⟨boundary, hboundary, hlt⟩
    · exact Or.inl rfl
    · obtain ⟨b, hb, hle⟩ := (boundary_loop_spec hboundary).2 clause hclause
      exact Or.inr ⟨b, hb, by omega⟩

end BooleanScorer

/-! ## The best of the clauses -/

namespace DisjunctionMaxScorer

variable {s : DisjunctionMaxScorer 𝕜} {clauses : List (ScorerClause 𝕜)} {d : ℕ}

/-- The scores seen so far are below the bounds seen so far: the best below
the greatest, all below the sum. -/
structure Below (acc : BestAndOthers 𝕜) (bounds : 𝕜 × 𝕜) : Prop where
  best_nonneg : 0 ≤ acc.max_score
  others_nonneg : 0 ≤ acc.sum_of_others
  best : acc.max_score ≤ bounds.1
  sum : acc.max_score + acc.sum_of_others ≤ bounds.2
  greatest : bounds.1 ≤ bounds.2

/-- A clause's bound. -/
def bound_clause (acc : 𝕜 × 𝕜) (clause : ScorerClause 𝕜) : 𝕜 × 𝕜 :=
  (if acc.1 < clause.scorer.max_score then clause.scorer.max_score else acc.1,
    acc.2 + clause.scorer.max_score)

theorem Below.step {acc : BestAndOthers 𝕜} {bounds : 𝕜 × 𝕜} (h : Below acc bounds)
    {clause : ScorerClause 𝕜} (hclause : ScoreBounds clause.scorer clause.matched) :
    Below (score_clause d acc clause) (bound_clause bounds clause) := by
  obtain ⟨hbest_nonneg, hothers, hbest, hsum, hgreatest⟩ := h
  have hm := hclause.max_nonneg
  have hup : bounds.1 ≤ (bound_clause bounds clause).1 ∧
      clause.scorer.max_score ≤ (bound_clause bounds clause).1 ∧
      (bound_clause bounds clause).1 ≤ (bound_clause bounds clause).2 := by
    simp only [bound_clause]
    grind
  have hsum' : (bound_clause bounds clause).2 = bounds.2 + clause.scorer.max_score := rfl
  rw [score_clause]
  rcases hmatched : clause.matched d with _ | term_freq
  · exact ⟨hbest_nonneg, hothers, hbest.trans hup.1, by rw [hsum']; linarith, hup.2.2⟩
  · have hscore := hclause.score_nonneg d term_freq hmatched
    have hle := hclause.max d term_freq hmatched
    dsimp only
    split
    · refine ⟨hscore, ?_, hle.trans hup.2.1, ?_, hup.2.2⟩
      · grind
      grind
    · refine ⟨hbest_nonneg, ?_, hbest.trans hup.1, ?_, hup.2.2⟩
      · grind
      grind

theorem Below.foldl {acc : BestAndOthers 𝕜} {bounds : 𝕜 × 𝕜} (h : Below acc bounds)
    (hclauses : ClauseBounds clauses) :
    Below (clauses.foldl (score_clause d) acc) (clauses.foldl bound_clause bounds) := by
  induction clauses generalizing acc bounds with
  | nil => exact h
  | cons clause clauses ih =>
      exact ih (h.step (hclauses clause List.mem_cons_self)) fun other hother =>
        hclauses other (List.mem_cons_of_mem _ hother)

/-- **The bounds of the best clause hold**, whichever clauses match. -/
theorem bounds (hboost : 0 ≤ s.boost) (htie : 0 ≤ s.tie_breaker) (htie' : s.tie_breaker ≤ 1)
    (h : ClauseBounds s.clauses) (postings : ℕ → Option ℕ) : ScoreBounds s.scorer postings := by
  have hstart : Below (BestAndOthers.start : BestAndOthers 𝕜) (0, 0) :=
    ⟨le_rfl, le_rfl, le_rfl, (add_zero (0 : 𝕜)).le, le_rfl⟩
  have hbelow : ∀ d, Below (s.clauses.foldl (score_clause d) .start)
      (s.clauses.foldl bound_clause (0, 0)) := fun d => hstart.foldl h
  have hmax : s.max_score = ((s.clauses.foldl bound_clause (0, 0)).1 + s.tie_breaker *
      ((s.clauses.foldl bound_clause (0, 0)).2 - (s.clauses.foldl bound_clause (0, 0)).1)) *
        s.boost := rfl
  have hmax_nonneg : 0 ≤ s.max_score := by
    obtain ⟨hbest_nonneg, -, hbest, -, hgreatest⟩ := hbelow 0
    grind [mul_nonneg, add_nonneg]
  refine ScoreBounds.of_max_score hmax_nonneg fun d _ _ => ?_
  obtain ⟨hbest_nonneg, hothers, hbest, hsum, -⟩ := hbelow d
  rw [score]
  split
  · exact ⟨le_rfl, hmax_nonneg⟩
  · refine ⟨mul_nonneg (add_nonneg hbest_nonneg (mul_nonneg htie hothers)) hboost, ?_⟩
    rw [hmax]
    refine mul_le_mul_of_nonneg_right ?_ hboost
    -- `best + t * others` is `(1 - t) * best + t * (best + others)`
    have hpart := mul_le_mul_of_nonneg_left hbest (sub_nonneg.2 htie')
    have hall := mul_le_mul_of_nonneg_left hsum htie
    linarith

end DisjunctionMaxScorer

/-! ## All of them -/

/-- **Score upper bounds are sound.** For the postings `D` of a term whose
tables are sound, and any cursor `p`: the term's bound, the suffix bound
after `p` and in its block, and the block's bound up to the boundary. For
any clauses whose bounds hold, of BM25 scorers or of compounds again: the
bounds of their sum and of their best. -/
theorem score_bounds_sound (𝕜 : Type) [Field 𝕜] [LinearOrder 𝕜] [IsStrictOrderedRing 𝕜] :
    (∀ (s : BM25Scorer 𝕜) (D : Finset ℕ) (term_freqs : ℕ → ℕ), s.Sound D term_freqs →
      (∀ p, ∀ d ∈ D, s.score d (term_freqs d) none ≤ s.max_score ∧
        (p ≤ d ∨ s.partition_point d = s.partition_point p →
          s.score d (term_freqs d) none ≤ s.block_max_score_at p) ∧
        (p ≤ d → (∀ boundary, s.next_block_boundary p = some boundary → d < boundary) →
          s.score d (term_freqs d) none ≤ s.current_block_max_score p)) ∧
      ScoreBounds s.scorer fun d => if d ∈ D then some (term_freqs d) else none) ∧
    (∀ (s : BooleanScorer 𝕜), 0 ≤ s.boost → ClauseBounds s.clauses →
      ∀ postings, ScoreBounds s.scorer postings) ∧
    (∀ (s : DisjunctionMaxScorer 𝕜), 0 ≤ s.boost → 0 ≤ s.tie_breaker → s.tie_breaker ≤ 1 →
      ClauseBounds s.clauses → ∀ postings, ScoreBounds s.scorer postings) := by
  refine ⟨fun s D term_freqs h => ⟨fun p d hd => ⟨h.score_le_max_score hd, ?_,
    h.score_le_current_block_max_score hd⟩, h.bounds fun d term_freq hd => ?_⟩,
    fun s hboost h => BooleanScorer.bounds hboost h,
    fun s hboost htie htie' h => DisjunctionMaxScorer.bounds hboost htie htie' h⟩
  · rintro (hpd | hblock)
    · exact h.score_le_block_max_score_at hd hpd
    · exact h.score_le_of_same_block hd hblock
  · split at hd
    · rename_i hmem
      exact ⟨hmem, (Option.some.inj hd).symm⟩
    · cases hd

/-! ### An example -/

/-- A term of the document 3, whose component is one. -/
def BM25Scorer.lone : BM25Scorer ℚ := .with_block_max 1 0 9 1 1 1 [⟨3, 1⟩]

theorem BM25Scorer.lone_component (d : ℕ) : lone.component d 1 = 1 := by
  have havg : lone.avg_field_length = 0 := rfl
  have hk1 : lone.k1 = 6 / 5 := rfl
  rw [component, tf, norm_factor, if_pos havg, hk1]
  norm_num

theorem BM25Scorer.lone_sound : lone.Sound {3} fun _ => 1 := by
  refine ⟨by decide, by decide, by decide +kernel, by decide +kernel, by decide +kernel,
    by decide, by decide, by decide, fun _ _ d _ => (lone_component d).le, fun _ _ d hd => ?_⟩
  rw [Finset.mem_singleton.1 hd]
  exact ⟨⟨3, 1⟩, rfl, (lone_component 3).le⟩

def BM25Scorer.lone_clause : ScorerClause ℚ where
  scorer := lone.scorer
  matched := fun d => if d ∈ ({3} : Finset ℕ) then some 1 else none

theorem score_bounds_sound_lone :
    BM25Scorer.lone.score 3 1 none ≤ BM25Scorer.lone.block_max_score_at 2 ∧
    ScoreBounds (BooleanScorer.scorer ⟨[BM25Scorer.lone_clause, BM25Scorer.lone_clause], 2⟩)
      (fun _ => some 1) ∧
    ScoreBounds (DisjunctionMaxScorer.scorer
      ⟨[BM25Scorer.lone_clause, BM25Scorer.lone_clause], 1 / 2, 2⟩) (fun _ => some 1) := by
  obtain ⟨hleaf, hboolean, hdis_max⟩ := score_bounds_sound ℚ
  obtain ⟨hpostings, hbounds⟩ := hleaf BM25Scorer.lone {3} (fun _ => 1) BM25Scorer.lone_sound
  have hclauses : ClauseBounds [BM25Scorer.lone_clause, BM25Scorer.lone_clause] := by
    intro clause hclause
    obtain rfl : clause = BM25Scorer.lone_clause := by simpa using hclause
    exact hbounds
  refine ⟨?_, hboolean _ (by norm_num) hclauses _,
    hdis_max _ (by norm_num) (by norm_num) (by norm_num) hclauses _⟩
  have hscore := (hpostings 2 3 (Finset.mem_singleton_self 3)).2.1 (Or.inl (by decide))
  rwa [Nat.cast_one] at hscore

end Laurus
