import Laurus.Boolean.Helpers.Search
import Mathlib.Algebra.Order.Ring.Int

/-!
# The parallel search against the serial one

Boosts that `validate_boosts` accepts give no negative score, so an unbounded
collector returns all that a clause's search reports. The bitmaps of the
clauses then combine to what the matcher visits, unless matches of `Should`
clauses are asked for where there are none, and the scores add up to what
the scorer gives, unless all positive clauses are `Filter` clauses
(`parallel_matches_serial`).
-/

namespace Laurus

/-! ## A collector with room for all -/

namespace TopDocsCollector

variable {𝕜 : Type} [LinearOrder 𝕜] {stream : List (ScoredDoc 𝕜)}

/-- **With room for all of a stream, a collector returns all that reaches the
minimum.** -/
theorem results_perm {max_docs : ℕ} {min_score : 𝕜} (hnodup : stream.Nodup)
    (hroom : stream.length ≤ max_docs) :
    ((with_min_score max_docs min_score).collect_stream stream).results.Perm
      (stream.filter fun hit => min_score ≤ hit.score) := by
  have hkeeps := keeps_of_nodup max_docs min_score hnodup
  obtain ⟨hmax, hmin⟩ := (with_min_score max_docs min_score).collect_stream_limits stream
  refine (List.perm_insertionSort _ _).trans ?_
  refine (List.perm_ext_iff_of_nodup hkeeps.nodup (hnodup.filter _)).2 fun hit => ?_
  rw [List.mem_filter, decide_eq_true_eq]
  constructor
  · intro hhit
    have hreach := hkeeps.reaches hit hhit
    rw [hmin] at hreach
    exact ⟨hkeeps.offered hit hhit, hreach⟩
  · rintro ⟨hhit, hreach⟩
    -- all others together leave room for one more
    refine hkeeps.mem (stream.erase hit) hhit (by rw [hmin]; exact hreach) (fun x hx _ => ?_) ?_
    · grind
    · have hpos := List.length_pos_of_mem hhit
      rw [hmax, List.length_erase_of_mem hhit]
      change stream.length - 1 < max_docs
      omega

end TopDocsCollector

namespace BoostedQuery

open Matcher

variable {L 𝕜 : Type} [CommRing 𝕜]
variable {B : Backend L} {docs : L → Finset ℕ} {S : Scoring L 𝕜}
variable {clauses : List (Occur × BoostedQuery L 𝕜)} {d n : ℕ}

omit [CommRing 𝕜] in
theorem hits_of_doc_ids (f : ℕ → 𝕜) (ds : List ℕ) : (hits_of f ds).map ScoredDoc.doc_id = ds := by
  rw [hits_of, List.map_map]
  exact List.map_id ds

theorem stream_nodup (query : BoostedQuery L 𝕜) : (stream B docs S query).Nodup := by
  refine List.Nodup.of_map ScoredDoc.doc_id ?_
  rw [stream, hits_of_doc_ids]
  exact Finset.sort_nodup _ _

/-- The score of a document in a list of hits: the scores it has there, added
up. -/
def listed (hits : List (ScoredDoc 𝕜)) (d : ℕ) : 𝕜 :=
  (hits.map fun hit => if hit.doc_id = d then hit.score else 0).sum

theorem listed_append (xs ys : List (ScoredDoc 𝕜)) :
    listed (xs ++ ys) d = listed xs d + listed ys d := by
  rw [listed, List.map_append, List.sum_append, ← listed, ← listed]

theorem listed_perm {xs ys : List (ScoredDoc 𝕜)} (h : xs.Perm ys) : listed xs d = listed ys d :=
  (h.map _).sum_eq

theorem listed_stream (query : BoostedQuery L 𝕜) : listed (stream B docs S query) d =
    if d ∈ selects B docs query then score_of B docs S query d else 0 := by
  have hsum : ∀ ds : List ℕ, ds.Nodup → listed (hits_of (score_of B docs S query) ds) d =
      if d ∈ ds then score_of B docs S query d else 0 := by
    intro ds
    induction ds with
    | nil => simp [hits_of, listed]
    | cons x ds ih =>
        grind [hits_of, listed]
  rw [stream, hsum _ (Finset.sort_nodup _ _)]
  simp only [Finset.mem_sort]

omit [CommRing 𝕜] in
theorem selects_lt_end (h : Query.Sound B docs) (query : BoostedQuery L 𝕜) {d : ℕ}
    (hd : d ∈ selects B docs query) : d < END := by
  obtain ⟨m, -, -, hm, -⟩ :=
    (Query.matcher_selects h _ query.unboosted le_rfl).run (Query.cacheHolds_new 0)
  exact Query.At.lt_end hm hd

theorem stream_length (h : Query.Sound B docs) (query : BoostedQuery L 𝕜) :
    (stream B docs S query).length ≤ UNBOUNDED := by
  have hsub : selects B docs query ⊆ Finset.range END := fun d hd =>
    Finset.mem_range.2 (selects_lt_end h query hd)
  have hcard := Finset.card_le_card hsub
  rw [Finset.card_range] at hcard
  rw [stream, hits_of, List.length_map, Finset.length_sort]
  exact hcard.trans (by rw [UNBOUNDED, END])

/-! ## Gathering the clauses -/

section Gather

variable [LinearOrder 𝕜]

/-- What the unbounded collector returns of some hits. -/
def kept (hits : List (ScoredDoc 𝕜)) : List (ScoredDoc 𝕜) :=
  ((TopDocsCollector.new UNBOUNDED).collect_stream hits).results

/-- What the loop leaves of `g`. -/
def gathered (B : Backend L) (docs : L → Finset ℕ) (S : Scoring L 𝕜) :
    List (Occur × BoostedQuery L 𝕜) → Gathered 𝕜 → Gathered 𝕜
  | [], g => g
  | (occur, query) :: clauses, g =>
    gathered B docs S clauses (g.add occur (kept (stream B docs S query)))

theorem gather_yields (h : Query.Sound B docs)
    (hlevels : ∀ clause ∈ clauses, Query.levels clause.2.unboosted ≤ n) (g : Gathered 𝕜) :
    Query.Yields B (Query.selects B docs) (gather B S n clauses g)
      (· = gathered B docs S clauses g) := by
  induction clauses generalizing g with
  | nil => exact .pure rfl
  | cons clause clauses ih =>
      rw [List.forall_mem_cons] at hlevels
      rw [gather, clause_hits, bind_assoc]
      refine (search_yields h hlevels.1).bind fun hits hhits => ?_
      rw [pure_bind, hhits]
      exact ih hlevels.2 _

end Gather

/-- The documents of the clauses, each with its kind. -/
def clause_sets (B : Backend L) (docs : L → Finset ℕ)
    (clauses : List (Occur × BoostedQuery L 𝕜)) : List (Occur × Finset ℕ) :=
  clauses.map fun clause => (clause.1, selects B docs clause.2)

/-- What the loop adds to `g`: a bitmap for each required clause, the unions
of the others, and the scores. -/
structure Gathers (B : Backend L) (docs : L → Finset ℕ) (S : Scoring L 𝕜)
    (clauses : List (Occur × BoostedQuery L 𝕜)) (g g' : Gathered 𝕜) : Prop where
  must : ∀ R, R ∈ g'.must_bitmaps ↔
    R ∈ g.must_bitmaps ∨ R ∈ Query.required (clause_sets B docs clauses)
  should : g'.should_bitmap =
    g.should_bitmap ∪ anyOf (Query.of .should (clause_sets B docs clauses))
  must_not : g'.must_not_bitmap =
    g.must_not_bitmap ∪ anyOf (Query.of .must_not (clause_sets B docs clauses))
  scores : ∀ d, listed g'.scored_hits d = listed g.scored_hits d + clauses_score B docs S clauses d

theorem bitmap_of_perm {hits : List (ScoredDoc 𝕜)} {query : BoostedQuery L 𝕜}
    (h : hits.Perm (stream B docs S query)) : Gathered.bitmap hits = selects B docs query := by
  rw [Gathered.bitmap, List.toFinset_eq_of_perm _ _ (h.map _), stream, hits_of_doc_ids,
    Finset.sort_toFinset]

theorem Gathers.refl (g : Gathered 𝕜) : Gathers B docs S [] g g where
  must R := by simp [clause_sets, Query.required, Query.of]
  should := by simp [clause_sets, Query.of, anyOf]
  must_not := by simp [clause_sets, Query.of, anyOf]
  scores d := by rw [clauses_score, add_zero]

theorem Gathers.cons {g g' : Gathered 𝕜} {occur : Occur} {query : BoostedQuery L 𝕜}
    {hits : List (ScoredDoc 𝕜)} (h : Gathers B docs S clauses (g.add occur hits) g')
    (hhits : hits.Perm (stream B docs S query)) :
    Gathers B docs S ((occur, query) :: clauses) g g' := by
  have hbitmap := bitmap_of_perm hhits
  have hlisted : ∀ d, listed hits d = if d ∈ selects B docs query then
      score_of B docs S query d else 0 := fun d => by rw [listed_perm hhits, listed_stream]
  refine ⟨fun R => ?_, ?_, ?_, fun d => ?_⟩
  · rw [h.must]
    cases occur <;> simp [Gathered.add, hbitmap, clause_sets, Query.required, Query.of, or_assoc,
      or_left_comm]
  · rw [h.should]
    cases occur <;> simp [Gathered.add, hbitmap, clause_sets, Query.of, anyOf]
  · rw [h.must_not]
    cases occur <;> simp [Gathered.add, hbitmap, clause_sets, Query.of, anyOf]
  · rw [h.scores, clauses_score]
    cases occur <;> simp [Gathered.add, listed_append, hlisted, add_assoc]

/-! ## Scores that are not negative -/

section Order

variable [LinearOrder 𝕜] [IsStrictOrderedRing 𝕜]

/-- What scorers give for a boost of 1 is not negative. -/
structure NonnegScoring (S : Scoring L 𝕜) : Prop where
  leaf : ∀ l d, 0 ≤ S.leaf_score l d
  fallback : ∀ filters d, 0 ≤ S.fallback_score filters d

mutual

/-- **Accepted boosts give no negative score.** -/
theorem score_of_nonneg (hS : NonnegScoring S) : ∀ (query : BoostedQuery L 𝕜) (d : ℕ),
    query.validate_boosts = true → 0 ≤ score_of B docs S query d
  | leaf l boost, d, hvalid => by
      rw [validate_boosts, decide_eq_true_eq] at hvalid
      exact mul_nonneg hvalid (hS.leaf l d)
  | boolean clauses m boost, d, hvalid => by
      rw [validate_boosts, Bool.and_eq_true, decide_eq_true_eq] at hvalid
      rw [score_of]
      split
      · exact mul_nonneg hvalid.1 (hS.fallback _ d)
      · exact mul_nonneg (clauses_score_nonneg hS clauses d hvalid.2) hvalid.1

theorem clauses_score_nonneg (hS : NonnegScoring S) :
    ∀ (clauses : List (Occur × BoostedQuery L 𝕜)) (d : ℕ),
    validate_clauses clauses = true → 0 ≤ clauses_score B docs S clauses d
  | [], d, _ => by rw [clauses_score]
  | (occur, query) :: clauses, d, hvalid => by
      rw [validate_clauses, Bool.and_eq_true] at hvalid
      refine add_nonneg ?_ (clauses_score_nonneg hS clauses d hvalid.2)
      split
      · exact score_of_nonneg hS query d hvalid.1
      · exact le_rfl

end

theorem kept_perm (h : Query.Sound B docs) (hS : NonnegScoring S) {query : BoostedQuery L 𝕜}
    (hvalid : query.validate_boosts = true) :
    (kept (stream B docs S query)).Perm (stream B docs S query) := by
  refine (TopDocsCollector.results_perm (stream_nodup query) (stream_length h query)).trans ?_
  rw [List.filter_eq_self.2]
  intro hit hhit
  obtain ⟨d, -, rfl⟩ := List.mem_map.1 hhit
  exact decide_eq_true (score_of_nonneg hS query d hvalid)

/-- **The loop gathers the documents and the scores of the clauses.** -/
theorem gathers_gathered (h : Query.Sound B docs) (hS : NonnegScoring S)
    (hvalid : validate_clauses clauses = true) (g : Gathered 𝕜) :
    Gathers B docs S clauses g (gathered B docs S clauses g) := by
  induction clauses generalizing g with
  | nil => exact .refl g
  | cons clause clauses ih =>
      rw [validate_clauses, Bool.and_eq_true] at hvalid
      exact (ih hvalid.2 _).cons (kept_perm h hS hvalid.1)

end Order

/-! ## Combining the clauses -/

section Combine

variable {g : Gathered 𝕜} {m : ℕ} {boost : 𝕜}

omit [CommRing 𝕜] in
theorem mem_foldl_inter (Rs : List (Finset ℕ)) (R : Finset ℕ) :
    d ∈ Rs.foldl (· ∩ ·) R ↔ d ∈ R ∧ ∀ S ∈ Rs, d ∈ S := by
  induction Rs generalizing R with
  | nil => simp
  | cons R' Rs ih => grind

theorem Gathers.bitmaps_eq_nil (hg : Gathers B docs S clauses .empty g) :
    g.must_bitmaps = [] ↔ Query.required (clause_sets B docs clauses) = [] := by
  rw [List.eq_nil_iff_forall_not_mem, List.eq_nil_iff_forall_not_mem]
  refine forall_congr' fun R => not_congr ?_
  rw [hg.must]
  exact or_iff_right List.not_mem_nil

theorem Gathers.should_eq (hg : Gathers B docs S clauses .empty g) :
    g.should_bitmap = anyOf (Query.of .should (clause_sets B docs clauses)) := by
  rw [hg.should]
  exact Finset.empty_union _

theorem Gathers.candidate_eq (hg : Gathers B docs S clauses .empty g)
    (hpos : Query.required (clause_sets B docs clauses) ≠ [] ∨
      Query.of .should (clause_sets B docs clauses) ≠ []) :
    g.candidate = Query.candidates B (clause_sets B docs clauses) := by
  rw [Query.candidates]
  by_cases hreq : Query.required (clause_sets B docs clauses) = []
  · rw [if_neg (not_not.2 hreq), if_pos (hpos.resolve_left (not_not.2 hreq)), ← hg.should_eq,
      Gathered.candidate, hg.bitmaps_eq_nil.2 hreq]
  · rw [if_pos hreq]
    ext d
    have hall : (∀ R ∈ g.must_bitmaps, d ∈ R) ↔
        ∀ R ∈ Query.required (clause_sets B docs clauses), d ∈ R := by
      refine forall_congr' fun R => ?_
      rw [hg.must]
      exact imp_congr_left (or_iff_right List.not_mem_nil)
    rw [mem_allOf hreq, ← hall, Gathered.candidate]
    rcases hbitmaps : g.must_bitmaps with _ | ⟨R, Rs⟩
    · exact absurd (hg.bitmaps_eq_nil.1 hbitmaps) hreq
    · rw [List.forall_mem_cons]
      exact mem_foldl_inter Rs R

/-- **The survivors are what the matcher visits**, where matches of `Should`
clauses are asked for only if there are some. -/
theorem Gathers.survivor_eq (hg : Gathers B docs S clauses .empty g)
    (hpos : Query.required (clause_sets B docs clauses) ≠ [] ∨
      Query.of .should (clause_sets B docs clauses) ≠ [])
    (hshould : 0 < m → Query.required (clause_sets B docs clauses) ≠ [] →
      Query.of .should (clause_sets B docs clauses) ≠ []) :
    g.survivor m = Query.matches_of B (clause_sets B docs clauses) (min m 1) := by
  have hnot : g.must_not_bitmap = anyOf (Query.of .must_not (clause_sets B docs clauses)) := by
    rw [hg.must_not]
    exact Finset.empty_union _
  ext d
  rw [Query.mem_matches_of (Or.inl (by omega)), Gathered.survivor, Finset.mem_sdiff, hnot,
    ← hg.candidate_eq hpos, ← and_assoc, and_congr_left_iff]
  intro _
  by_cases hreq : Query.required (clause_sets B docs clauses) = []
  · rw [if_neg (by rw [not_and_or, not_not]; exact Or.inl (hg.bitmaps_eq_nil.2 hreq))]
    refine (and_iff_left_of_imp fun hd => Or.inr (Or.inr ?_)).symm
    rwa [Gathered.candidate, hg.bitmaps_eq_nil.2 hreq, hg.should_eq] at hd
  · have hreq' : g.must_bitmaps ≠ [] := mt hg.bitmaps_eq_nil.1 hreq
    by_cases hm : 0 < m
    · rw [if_pos ⟨hreq', hm⟩, Finset.mem_inter, hg.should_eq]
      grind
    grind

theorem score_acc_eq (survivor : Finset ℕ) (hits : List (ScoredDoc 𝕜)) (acc : ℕ → 𝕜)
    (hd : d ∈ survivor) : Gathered.score_acc survivor hits acc d = acc d + listed hits d := by
  induction hits generalizing acc with
  | nil => simp [Gathered.score_acc, listed]
  | cons hit hits ih =>
      rw [Gathered.score_acc, listed, List.map_cons, List.sum_cons, ← listed]
      split
      · grind
      · grind

/-- **The hits are the survivors, with the scores of the clauses.** -/
theorem Gathers.hits_eq (hg : Gathers B docs S clauses .empty g) :
    g.hits m boost = hits_of (fun d => clauses_score B docs S clauses d * boost)
      ((g.survivor m).sort (· ≤ ·)) := by
  refine List.map_congr_left fun d hd => ?_
  have hscores : listed g.scored_hits d = clauses_score B docs S clauses d := by
    rw [hg.scores]
    simp [Gathered.empty, listed]
  rw [score_acc_eq _ _ _ ((Finset.mem_sort _).1 hd), hscores, zero_add]

end Combine

/-! ## One clause -/

section Single

variable {query : BoostedQuery L 𝕜} {m : ℕ} {boost : 𝕜}

omit [CommRing 𝕜] in
theorem unboosted_set_boost (query : BoostedQuery L 𝕜) (boost : 𝕜) :
    (query.set_boost boost).unboosted = query.unboosted := by
  cases query <;> simp only [set_boost, unboosted]

theorem score_of_scaled (query : BoostedQuery L 𝕜) (boost : 𝕜) (d : ℕ) :
    score_of B docs S (query.set_boost (query.boost * boost)) d =
      score_of B docs S query d * boost := by
  cases query with
  | leaf l b =>
      simp only [set_boost, BoostedQuery.boost, score_of]
      ring
  | boolean clauses m b =>
      simp only [set_boost, BoostedQuery.boost, score_of]
      split <;> ring

theorem stream_scaled [DecidableEq 𝕜] (query : BoostedQuery L 𝕜) (boost : 𝕜) :
    stream B docs S (if boost ≠ 1 then query.set_boost (query.boost * boost) else query) =
      hits_of (fun d => score_of B docs S query d * boost)
        ((selects B docs query).sort (· ≤ ·)) := by
  split
  · rw [stream, selects, unboosted_set_boost, ← selects]
    exact congrArg (fun f => hits_of f _) (funext fun d => score_of_scaled query boost d)
  · rename_i hone
    rw [not_not.1 hone, stream]
    simp only [mul_one]

omit [CommRing 𝕜] in
theorem selects_single {occur : Occur} (hoccur : occur ≠ .must_not) :
    selects B docs (boolean [(occur, query)] m boost) = selects B docs query := by
  rw [selects_boolean]
  ext d
  rw [Query.mem_matches_of (Or.inl (by omega))]
  cases occur with
  | must_not => exact absurd rfl hoccur
  | must => simp [Query.candidates, Query.required, Query.of, allOf, anyOf]
  | filter => simp [Query.candidates, Query.required, Query.of, allOf, anyOf]
  | should =>
      simp [Query.candidates, Query.required, Query.of, anyOf]
      exact Or.inr

theorem stream_single {occur : Occur} (hoccur : occur = .must ∨ occur = .should) :
    stream B docs S (boolean [(occur, query)] m boost) =
      hits_of (fun d => score_of B docs S query d * boost)
        ((selects B docs query).sort (· ≤ ·)) := by
  have hsub : sub_queries [(occur, query)] ≠ [] := by simp [sub_queries, hoccur]
  have hne : occur ≠ .must_not := by rcases hoccur with rfl | rfl <;> decide
  rw [stream, selects_single hne]
  refine List.map_congr_left fun d hd => ?_
  have hscored : (occur = .must ∨ occur = .should) ∧ d ∈ selects B docs query :=
    ⟨hoccur, (Finset.mem_sort _).1 hd⟩
  rw [score_of, if_neg hsub, clauses_score, clauses_score, if_pos hscored, add_zero]

end Single

/-! ## The two searches -/

/-- From every sound cache, a search reports `hits`. -/
def Reports (B : Backend L) (docs : L → Finset ℕ) (x : Search (List (ScoredDoc 𝕜)))
    (hits : List (ScoredDoc 𝕜)) : Prop :=
  ∀ cache, Query.CacheHolds B (Query.selects B docs) cache → ∃ cache',
    x cache = .ok (hits, cache') ∧ Query.CacheHolds B (Query.selects B docs) cache'

omit [CommRing 𝕜] in
theorem reports_of_yields {x : Search (List (ScoredDoc 𝕜))} {hits : List (ScoredDoc 𝕜)}
    (h : Query.Yields B (Query.selects B docs) x (· = hits)) : Reports B docs x hits := by
  intro cache hcache
  obtain ⟨hits', cache', hrun, rfl, hcache'⟩ := h.run hcache
  exact ⟨cache', hrun, hcache'⟩

/-- Matches of `Should` clauses are asked for, of required clauses and others
but no `Should` clause. -/
def AsksForNone (clauses : List (Occur × BoostedQuery L 𝕜)) (minimum_should_match : ℕ) : Prop :=
  1 < clauses.length ∧ 0 < minimum_should_match ∧
    (∃ clause ∈ clauses, clause.1 = .must ∨ clause.1 = .filter) ∧
    ∀ clause ∈ clauses, clause.1 ≠ .should

/-- The positive clauses are `Filter` clauses, and there is one. -/
def FiltersAlone (clauses : List (Occur × BoostedQuery L 𝕜)) : Prop :=
  (∃ clause ∈ clauses, clause.1 = .filter) ∧
    ∀ clause ∈ clauses, clause.1 = .filter ∨ clause.1 = .must_not

section Agreement

variable [LinearOrder 𝕜] {m : ℕ} {boost : 𝕜}

/-- What the parallel search reports. -/
def parallel_stream (B : Backend L) (docs : L → Finset ℕ) (S : Scoring L 𝕜)
    (clauses : List (Occur × BoostedQuery L 𝕜)) (m : ℕ) (boost : 𝕜) : List (ScoredDoc 𝕜) :=
  if clauses = [] then []
  else if ∀ clause ∈ clauses, clause.1 = .must_not then
    stream B docs S (boolean clauses m boost)
  else
    match clauses with
    | [(_, query)] =>
      stream B docs S (if boost ≠ 1 then query.set_boost (query.boost * boost) else query)
    | clauses => (gathered B docs S clauses .empty).hits m boost

theorem search_boolean_query_parallel_yields (h : Query.Sound B docs)
    (hlevels : Query.clause_levels (unboosted_clauses clauses) < n) :
    Query.Yields B (Query.selects B docs) (search_boolean_query_parallel B S n clauses m boost)
      (· = parallel_stream B docs S clauses m boost) := by
  have hbelow : ∀ clause ∈ clauses, Query.levels clause.2.unboosted ≤ n := fun clause hclause =>
    (levels_clause hclause).trans hlevels.le
  by_cases hnil : clauses = []
  · subst hnil
    exact .pure rfl
  by_cases hnot : ∀ clause ∈ clauses, clause.1 = .must_not
  · rw [search_boolean_query_parallel.eq_def, parallel_stream.eq_def,
      if_neg (by simpa using hnil), if_neg hnil,
      if_pos (by simpa using hnot), if_pos hnot]
    refine search_yields h ?_
    rw [unboosted, Query.levels]
    omega
  rw [search_boolean_query_parallel.eq_def, parallel_stream.eq_def,
    if_neg (by simpa using hnil), if_neg hnil,
    if_neg (by simpa using hnot), if_neg hnot]
  rcases clauses with _ | ⟨⟨occur, query⟩, _ | ⟨second, others⟩⟩
  · contradiction
  · grind [search_yields, unboosted_set_boost]
  · refine (gather_yields (S := S) h hbelow .empty).bind fun g hg => .pure ?_
    rw [hg]

omit [CommRing 𝕜] [LinearOrder 𝕜] in
theorem of_clause_sets_eq_nil {occur : Occur} :
    Query.of occur (clause_sets B docs clauses) = [] ↔ ∀ clause ∈ clauses, clause.1 ≠ occur := by
  rw [Query.of, List.map_eq_nil_iff, List.filter_eq_nil_iff, clause_sets, List.forall_mem_map]
  simp only [decide_eq_true_eq]

omit [CommRing 𝕜] [LinearOrder 𝕜] in
theorem required_clause_sets_eq_nil : Query.required (clause_sets B docs clauses) = [] ↔
    ∀ clause ∈ clauses, clause.1 ≠ .must ∧ clause.1 ≠ .filter := by
  grind [Query.required, List.append_eq_nil_iff, of_clause_sets_eq_nil]

omit [CommRing 𝕜] [LinearOrder 𝕜] in
theorem positive_of_not_all (hpos : ¬ ∀ clause ∈ clauses, clause.1 = .must_not) :
    Query.required (clause_sets B docs clauses) ≠ [] ∨
      Query.of .should (clause_sets B docs clauses) ≠ [] := by
  by_contra hnone
  rw [not_or, not_not, not_not, required_clause_sets_eq_nil, of_clause_sets_eq_nil] at hnone
  refine hpos fun clause hclause => ?_
  have hreq := hnone.1 clause hclause
  have hshould := hnone.2 clause hclause
  cases hoccur : clause.1 with
  | must => exact absurd hoccur hreq.1
  | filter => exact absurd hoccur hreq.2
  | should => exact absurd hoccur hshould
  | must_not => rfl

/-- Several clauses: the documents of the query, with the scores of the
clauses. -/
theorem hits_of_several [IsStrictOrderedRing 𝕜] (h : Query.Sound B docs) (hS : NonnegScoring S)
    (hvalid : validate_clauses clauses = true)
    (hpos : ¬ ∀ clause ∈ clauses, clause.1 = .must_not) (hsome : 1 < clauses.length)
    (hask : ¬ AsksForNone clauses m) :
    (gathered B docs S clauses .empty).hits m boost =
      hits_of (fun d => clauses_score B docs S clauses d * boost)
        ((selects B docs (boolean clauses m boost)).sort (· ≤ ·)) := by
  have hg := gathers_gathered h hS hvalid .empty
  rw [hg.hits_eq, selects_boolean, ← clause_sets, hg.survivor_eq (positive_of_not_all hpos)]
  intro hm hreq hshould
  rw [ne_eq, required_clause_sets_eq_nil] at hreq
  push Not at hreq
  obtain ⟨clause, hclause, hoccur⟩ := hreq
  refine hask ⟨hsome, hm, ⟨clause, hclause, ?_⟩, of_clause_sets_eq_nil.1 hshould⟩
  exact or_iff_not_imp_left.2 hoccur

omit [LinearOrder 𝕜] in
theorem stream_of_scored (hsub : sub_queries clauses ≠ []) :
    stream B docs S (boolean clauses m boost) =
      hits_of (fun d => clauses_score B docs S clauses d * boost)
        ((selects B docs (boolean clauses m boost)).sort (· ≤ ·)) := by
  rw [stream]
  refine List.map_congr_left fun d _ => ?_
  rw [score_of, if_neg hsub]

/-- The documents agree, and where the positive clauses are not `Filter`
clauses alone, the scores do too. -/
theorem parallel_stream_agrees [IsStrictOrderedRing 𝕜] (h : Query.Sound B docs)
    (hS : NonnegScoring S) (hvalid : (boolean clauses m boost).validate_boosts = true)
    (hask : ¬ AsksForNone clauses m) :
    (parallel_stream B docs S clauses m boost).map ScoredDoc.doc_id =
        (stream B docs S (boolean clauses m boost)).map ScoredDoc.doc_id ∧
      (¬ FiltersAlone clauses → parallel_stream B docs S clauses m boost =
        stream B docs S (boolean clauses m boost)) := by
  rw [validate_boosts, Bool.and_eq_true] at hvalid
  rw [parallel_stream.eq_def]
  by_cases hnil : clauses = []
  · subst hnil
    have hempty : selects B docs (boolean [] m boost) = ∅ := by
      rfl
    rw [if_pos rfl, stream, hempty, Finset.sort_empty]
    exact ⟨rfl, fun _ => rfl⟩
  by_cases hnot : ∀ clause ∈ clauses, clause.1 = .must_not
  · grind
  rw [if_neg hnil, if_neg hnot]
  rcases clauses with _ | ⟨⟨occur, query⟩, _ | ⟨second, others⟩⟩
  · contradiction
  · have hoccur : occur ≠ .must_not := by simpa using hnot
    dsimp only
    rw [stream_scaled]
    refine ⟨?_, fun halone => ?_⟩
    · rw [stream, hits_of_doc_ids, hits_of_doc_ids, selects_single hoccur]
    · cases occur with
      | must => exact (stream_single (Or.inl rfl)).symm
      | should => exact (stream_single (Or.inr rfl)).symm
      | filter => exact absurd (by simp [FiltersAlone]) halone
      | must_not => exact absurd rfl hoccur
  · dsimp only
    rw [hits_of_several h hS hvalid.2 hnot (by simp) hask]
    refine ⟨by rw [stream, hits_of_doc_ids, hits_of_doc_ids], fun halone => ?_⟩
    refine (stream_of_scored fun hsub => halone ?_).symm
    -- no clause scores, and not all exclude
    have hkinds : ∀ clause ∈ (occur, query) :: second :: others,
        clause.1 = .filter ∨ clause.1 = .must_not := by
      intro clause hclause
      rw [sub_queries, List.map_eq_nil_iff, List.filter_eq_nil_iff] at hsub
      have hone := hsub clause hclause
      rw [decide_eq_true_eq, not_or] at hone
      cases hkind : clause.1 with
      | must => exact absurd hkind hone.1
      | should => exact absurd hkind hone.2
      | filter => exact Or.inl rfl
      | must_not => exact Or.inr rfl
    push Not at hnot
    obtain ⟨clause, hclause, hkind⟩ := hnot
    exact ⟨⟨clause, hclause, (hkinds clause hclause).resolve_right hkind⟩, hkinds⟩

end Agreement

/-! ## A sample -/

/-- Every score of a leaf is 1, and so is that of a query without scores. -/
def sampleScoring : Scoring (Fin 8) ℤ where
  leaf_score _ _ := 1
  fallback_score _ _ := 1

theorem sampleScoring_nonneg : NonnegScoring sampleScoring where
  leaf _ _ := zero_le_one
  fallback _ _ := zero_le_one

/-- One document is required and wanted in two levels, another excluded. -/
def sampleClauses (l l' : Fin 8) : List (Occur × BoostedQuery (Fin 8) ℤ) :=
  [(.must, leaf l 1), (.should, boolean [(.should, leaf l 2), (.filter, leaf l 1)] 2 3),
    (.must_not, leaf l' 0)]

theorem sample_reports {o o' : Occur} {b b' : ℤ} {m : ℕ} {serial parallel : List (ScoredDoc ℤ)}
    (hserial : stream Query.sample Query.sampleDocs sampleScoring
      (boolean [(o, leaf 0 b), (o', leaf 0 b')] m 1) = serial)
    (hparallel : parallel_stream Query.sample Query.sampleDocs sampleScoring
      [(o, leaf 0 b), (o', leaf 0 b')] m 1 = parallel) (n : ℕ) :
    Reports Query.sample Query.sampleDocs (search Query.sample sampleScoring (n + 1)
      (boolean [(o, leaf 0 b), (o', leaf 0 b')] m 1)) serial ∧
    Reports Query.sample Query.sampleDocs (search_boolean_query_parallel Query.sample sampleScoring
      (n + 1) [(o, leaf 0 b), (o', leaf 0 b')] m 1) parallel := by
  have hlevels : Query.clause_levels (unboosted_clauses [(o, leaf (0 : Fin 8) b), (o', leaf 0 b')])
      < n + 1 := by
    simp [unboosted_clauses, unboosted, Query.clause_levels, Query.levels]
  grind [reports_of_yields, search_yields, Query.sample_sound, unboosted, Query.levels,
    search_boolean_query_parallel_yields]

theorem sample_stream_leaf (b : ℤ) :
    stream Query.sample Query.sampleDocs sampleScoring (leaf 0 b) = [⟨0, b⟩] := by
  have hselects : selects Query.sample Query.sampleDocs (leaf 0 b) = {0} := by
    rfl
  rw [stream, hselects, Finset.sort_singleton]
  simp [hits_of, score_of, sampleScoring]

theorem sample_parallel_stream {o o' : Occur} {b b' : ℤ} {m : ℕ} (ho : o ≠ .must_not) :
    parallel_stream Query.sample Query.sampleDocs sampleScoring
        [(o, leaf 0 b), (o', leaf 0 b')] m 1 =
      ((Gathered.empty.add o (kept [⟨0, b⟩])).add o' (kept [⟨0, b'⟩])).hits m 1 := by
  rw [parallel_stream.eq_def, if_neg (List.cons_ne_nil _ _), if_neg (by simp [ho])]
  simp only [gathered, sample_stream_leaf]

end BoostedQuery

end Laurus
