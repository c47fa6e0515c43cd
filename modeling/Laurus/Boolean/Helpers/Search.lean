import Laurus.Boolean.Model.Search
import Laurus.Boolean.Semantics
import Laurus.Search.Helpers.Ranking
import Mathlib.Algebra.BigOperators.Group.List.Basic

/-!
# What a search reports

`selects` is what a query's matcher visits, whatever its counts, and
`score_of` what its scorer gives for a document. `Serves` says that a scorer
answers a function on the documents from a position on; it is handed from a
document to the next, and from the clauses to their sum. So the serial
search reports `stream`, and an unbounded collector keeps of it what scores
at least 0.
-/

namespace Laurus

namespace Query

open Matcher

variable {L : Type} {B : Backend L} {docs : L → Finset ℕ}

/-! ## The documents -/

/-- The documents that a query's matcher visits: any count but zero asks for
one match. -/
def selects (B : Backend L) (docs : L → Finset ℕ) : Query L → Finset ℕ :=
  fold docs fun clauses minimum_should_match => matches_of B clauses (min minimum_should_match 1)

theorem selects_leaf (l : L) : selects B docs (leaf l) = docs l := by rw [selects, fold]

theorem selects_boolean (clauses : List (Occur × Query L)) (m : ℕ) :
    selects B docs (boolean clauses m) =
      matches_of B (clauses.map fun clause => (clause.1, selects B docs clause.2)) (min m 1) := by
  rw [selects, fold, fold_clauses_eq_map]

theorem keyed_selects (h : Sound B docs) : Keyed B (selects B docs) where
  live := h.live
  key := fold_eq_of_key h.key h.tag

theorem boolean_matcher_min {query_matcher : Query L → Search Matcher} {depth m : ℕ}
    {clauses : List (Occur × Query L)} : boolean_matcher B query_matcher depth clauses m =
      boolean_matcher B query_matcher depth clauses (min m 1) := by
  have hm : (0 < m) = (0 < min m 1) := by
    rw [eq_iff_iff]
    omega
  simp only [boolean_matcher, hm]

/-- **The matcher of a query is at the start of what the query selects.** -/
theorem matcher_selects (h : Sound B docs) : ∀ (n : ℕ) (query : Query L), levels query ≤ n →
    Yields B (selects B docs) (matcher B n query) (At (B.depth n) (selects B docs query)) := by
  intro n
  induction n with
  | zero =>
      intro query hlevels
      cases query with
      | leaf l =>
          exact .pure ((h.matcher l).mono (by simp only [Backend.depth]; omega))
      | boolean clauses m => simp [levels] at hlevels
  | succ n ih =>
      intro query hlevels
      cases query with
      | leaf l =>
          exact .pure ((h.matcher l).mono (by simp only [Backend.depth]; omega))
      | boolean clauses m =>
          rw [levels] at hlevels
          have hdepth : B.depth n = B.leaf_depth + 3 * n + 1 := by rw [Backend.depth]; omega
          have hdepth' : B.depth (n + 1) = B.leaf_depth + 3 * n + 4 := by
            rw [Backend.depth]
            omega
          rw [matcher, selects_boolean, boolean_matcher_min, hdepth, hdepth']
          refine boolean_matcher_yields (keyed_selects h) (fun clause hc => ?_) (Or.inl (by omega))
          rw [← hdepth]
          have hle := levels_le clauses hc
          exact ih clause.2 (by omega)

end Query

namespace BoostedQuery

open Matcher

variable {L 𝕜 : Type} [CommRing 𝕜]
variable {B : Backend L} {docs : L → Finset ℕ} {S : Scoring L 𝕜}

/-- The documents of a query. -/
def selects (B : Backend L) (docs : L → Finset ℕ) (query : BoostedQuery L 𝕜) : Finset ℕ :=
  Query.selects B docs query.unboosted

omit [CommRing 𝕜] in
theorem unboosted_clauses_eq_map (clauses : List (Occur × BoostedQuery L 𝕜)) :
    unboosted_clauses clauses = clauses.map fun clause => (clause.1, clause.2.unboosted) := by
  induction clauses with
  | nil => rfl
  | cons clause clauses ih =>
      rw [unboosted_clauses, ih, List.map_cons]

omit [CommRing 𝕜] in
theorem selects_boolean (clauses : List (Occur × BoostedQuery L 𝕜)) (m : ℕ) (boost : 𝕜) :
    selects B docs (boolean clauses m boost) = Query.matches_of B
      (clauses.map fun clause => (clause.1, selects B docs clause.2)) (min m 1) := by
  rw [selects, unboosted, Query.selects_boolean, unboosted_clauses_eq_map, List.map_map]
  rfl

/-! ## The scores -/

mutual

/-- The score of a query for a document it selects. -/
def score_of (B : Backend L) (docs : L → Finset ℕ) (S : Scoring L 𝕜) :
    BoostedQuery L 𝕜 → ℕ → 𝕜
  | leaf query boost, d => boost * S.leaf_score query d
  | boolean clauses _ boost, d =>
    if sub_queries clauses = [] then
      boost * S.fallback_score ((queries_by_occur clauses .filter).map unboosted) d
    else clauses_score B docs S clauses d * boost

/-- The scores of the clauses that score and select the document, added up. -/
def clauses_score (B : Backend L) (docs : L → Finset ℕ) (S : Scoring L 𝕜) :
    List (Occur × BoostedQuery L 𝕜) → ℕ → 𝕜
  | [], _ => 0
  | (occur, query) :: clauses, d =>
    (if (occur = .must ∨ occur = .should) ∧ d ∈ selects B docs query then
      score_of B docs S query d else 0) + clauses_score B docs S clauses d

end

/-- The sum over clauses given by their documents and their scores. -/
def total_of (specs : List (Finset ℕ × (ℕ → 𝕜))) (d : ℕ) : 𝕜 :=
  (specs.map fun spec => if d ∈ spec.1 then spec.2 d else 0).sum

theorem total_of_sub_queries (clauses : List (Occur × BoostedQuery L 𝕜)) (d : ℕ) :
    total_of ((sub_queries clauses).map fun query =>
      (selects B docs query, score_of B docs S query)) d = clauses_score B docs S clauses d := by
  induction clauses with
  | nil => simp [sub_queries, total_of, clauses_score]
  | cons clause clauses ih =>
      grind [clauses_score, sub_queries, total_of]

/-! ## Scorers over ascending documents -/

section Serves

variable {depth p d : ℕ} {D : Finset ℕ} {f : ℕ → 𝕜} {scorer : QueryScorer L 𝕜}

/-- The hits of some documents. -/
def hits_of (f : ℕ → 𝕜) (ds : List ℕ) : List (ScoredDoc 𝕜) :=
  ds.map fun d => { doc_id := d, score := f d }

/-- The scorer answers `f` on the documents of `D` from `p` on, ascending. -/
def Serves (S : Scoring L 𝕜) (depth p : ℕ) (D : Finset ℕ) (f : ℕ → 𝕜)
    (scorer : QueryScorer L 𝕜) : Prop :=
  ∀ ds : List ℕ, ds.Pairwise (· < ·) → (∀ d ∈ ds, p ≤ d ∧ d ∈ D) →
    scorer.score_docs S depth ds = some (hits_of f ds)

theorem Serves.mono {p' : ℕ} (h : Serves S depth p D f scorer) (hp : p ≤ p') :
    Serves S depth p' D f scorer :=
  fun ds hsorted hds => h ds hsorted fun d hd => ⟨hp.trans (hds d hd).1, (hds d hd).2⟩

theorem Serves.step (h : Serves S depth p D f scorer) (hp : p ≤ d) (hd : d ∈ D) :
    ∃ scorer', scorer.score S depth d = some (f d, scorer') ∧
      Serves S depth (d + 1) D f scorer' := by
  have hone := h [d] (List.pairwise_singleton _ d) fun x hx => by grind
  rw [QueryScorer.score_docs] at hone
  rcases hscore : scorer.score S depth d with _ | ⟨s, scorer'⟩
  · rw [hscore] at hone
    cases hone
  · rw [hscore] at hone
    have hs : s = f d := by simpa [QueryScorer.score_docs, hits_of] using hone
    refine ⟨scorer', by rw [hs], fun ds hsorted hds => ?_⟩
    -- the documents after `d` are served with `d` in front
    have hall := h (d :: ds)
      (List.pairwise_cons.2 ⟨fun x hx => by have := (hds x hx).1; omega, hsorted⟩)
      fun x hx => by grind
    rw [QueryScorer.score_docs, hscore] at hall
    rcases hrest : scorer'.score_docs S depth ds with _ | hits
    · simp [hrest] at hall
    grind [hits_of]

theorem serves_of_step (Inv : ℕ → QueryScorer L 𝕜 → Prop)
    (hstep : ∀ {p d : ℕ} {scorer : QueryScorer L 𝕜}, Inv p scorer → p ≤ d → d ∈ D →
      ∃ scorer', scorer.score S depth d = some (f d, scorer') ∧ Inv (d + 1) scorer')
    (hinv : Inv p scorer) : Serves S depth p D f scorer := by
  intro ds
  induction ds generalizing p scorer with
  | nil =>
      intro _ _
      rw [QueryScorer.score_docs, hits_of, List.map_nil]
  | cons d ds ih =>
      intro hsorted hds
      obtain ⟨hfirst, hsorted⟩ := List.pairwise_cons.1 hsorted
      obtain ⟨hpd, hd⟩ := hds d List.mem_cons_self
      obtain ⟨scorer', hscore, hinv'⟩ := hstep hinv hpd hd
      have hrest := ih hinv' hsorted fun x hx =>
        ⟨hfirst x hx, (hds x (List.mem_cons_of_mem _ hx)).2⟩
      rw [QueryScorer.score_docs, hscore]
      simp only [Option.bind_eq_bind, Option.bind_some, hrest]
      rfl

theorem serves_leaf (l : L) (boost : 𝕜) :
    Serves S depth p D (fun d => boost * S.leaf_score l d) (.leaf l boost) :=
  serves_of_step (fun _ scorer => scorer = .leaf l boost)
    (fun hinv _ _ => ⟨_, by rw [hinv, QueryScorer.score], rfl⟩) rfl

theorem serves_fallback (filters : List (Query L)) (boost : 𝕜) :
    Serves S depth p D (fun d => boost * S.fallback_score filters d) (.fallback filters boost) :=
  serves_of_step (fun _ scorer => scorer = .fallback filters boost)
    (fun hinv _ _ => ⟨_, by rw [hinv, QueryScorer.score], rfl⟩) rfl

/-- A clause of a scorer, ready for the documents from `p` on: its matcher has
what its query selects there, and its scorer serves it. -/
structure Ready (S : Scoring L 𝕜) (depth p : ℕ) (spec : Finset ℕ × (ℕ → 𝕜))
    (clause : QueryScorer L 𝕜 × Matcher) : Prop where
  inv : (treeView depth).Inv clause.2
  low : (treeView depth).low clause.2 ≤ p
  rem : ∀ d, p ≤ d → (d ∈ (treeView depth).rem clause.2 ↔ d ∈ spec.1)
  serves : Serves S depth p spec.1 spec.2 clause.1

/-- Skipping to a document: the matcher stands on it where the query selects
it. -/
theorem Ready.skip {spec : Finset ℕ × (ℕ → 𝕜)} {clause : QueryScorer L 𝕜 × Matcher}
    (h : Ready S depth p spec clause) (hp : p ≤ d) : ∃ found matcher',
      (Matcher.ops depth).skip_to clause.2 d = some (found, matcher') ∧
      ((found = true ∧ (Matcher.ops depth).doc_id matcher' = d) ↔ d ∈ spec.1) ∧
      (treeView depth).Inv matcher' ∧ (treeView depth).low matcher' ≤ d + 1 ∧
      ∀ x, d + 1 ≤ x → (x ∈ (treeView depth).rem matcher' ↔ x ∈ spec.1) := by
  obtain ⟨found, matcher', hskip, hinv, hrem, hfound, hlow⟩ :=
    (treeView depth).skip_spec h.inv (h.low.trans hp)
  have hlow' := h.low
  refine ⟨found, matcher', hskip, ?_, hinv, by omega, fun x hx => ?_⟩
  · rw [← h.rem d hp]
    constructor
    · rintro ⟨hf, hdoc⟩
      rw [(treeView depth).head_eq hinv] at hdoc
      grind [first_mem]
    · intro hd
      have hmem : d ∈ (treeView depth).rem matcher' := by grind
      refine ⟨hfound.2 ⟨d, hmem⟩, ?_⟩
      rw [(treeView depth).head_eq hinv]
      refine first_eq hmem fun x hx => ?_
      grind
  · rw [hrem, Finset.mem_filter, h.rem x (by omega)]
    exact and_iff_left (by omega)

/-- **The loop over the clauses adds up the scores of those that select the
document.** -/
theorem score_clauses_spec {specs : List (Finset ℕ × (ℕ → 𝕜))}
    {clauses : List (QueryScorer L 𝕜 × Matcher)}
    (h : List.Forall₂ (Ready S depth p) specs clauses) (hp : p ≤ d) (total : 𝕜) :
    ∃ clauses', QueryScorer.score_clauses S depth clauses d total =
        some (total + total_of specs d, clauses') ∧
      List.Forall₂ (Ready S depth (d + 1)) specs clauses' := by
  induction h generalizing total with
  | nil => exact ⟨[], by simp [QueryScorer.score_clauses, total_of], .nil⟩
  | @cons spec clause specs clauses hready _ ih =>
      obtain ⟨scorer, matcher⟩ := clause
      obtain ⟨found, matcher', hskip, hon, hinv, hlow, hrem⟩ := hready.skip hp
      by_cases hd : d ∈ spec.1
      · obtain ⟨scorer', hscore, hserves⟩ := hready.serves.step hp hd
        obtain ⟨clauses', hrest, hall⟩ := ih (total + spec.2 d)
        refine ⟨(scorer', matcher') :: clauses', ?_, .cons ⟨hinv, hlow, hrem, hserves⟩ hall⟩
        have htotal : total + total_of (spec :: specs) d =
            total + spec.2 d + total_of specs d := by
          simp only [total_of, List.map_cons, List.sum_cons, if_pos hd]
          ring
        rw [QueryScorer.score_clauses, hskip, htotal]
        grind
      · obtain ⟨clauses', hrest, hall⟩ := ih total
        refine ⟨(scorer, matcher') :: clauses', ?_,
          .cons ⟨hinv, hlow, hrem, hready.serves.mono (by omega)⟩ hall⟩
        grind [total_of, QueryScorer.score_clauses]

theorem serves_boolean {specs : List (Finset ℕ × (ℕ → 𝕜))}
    {clauses : List (QueryScorer L 𝕜 × Matcher)} {boost : 𝕜}
    (h : List.Forall₂ (Ready S depth p) specs clauses) :
    Serves S depth p D (fun d => total_of specs d * boost) (.boolean clauses boost) := by
  refine serves_of_step (fun p scorer => ∃ clauses,
    scorer = .boolean clauses boost ∧ List.Forall₂ (Ready S depth p) specs clauses)
    (fun hinv hpd _ => ?_) ⟨clauses, rfl, h⟩
  obtain ⟨clauses, rfl, hready⟩ := hinv
  obtain ⟨clauses', hscore, hready'⟩ := score_clauses_spec hready hpd 0
  grind [QueryScorer.score, zero_add]

end Serves

/-! ## The serial search -/

section Serial

variable {clauses : List (Occur × BoostedQuery L 𝕜)}

omit [CommRing 𝕜] in
theorem levels_clause {clause : Occur × BoostedQuery L 𝕜} (hmem : clause ∈ clauses) :
    Query.levels clause.2.unboosted ≤ Query.clause_levels (unboosted_clauses clauses) := by
  refine Query.levels_le (unboosted_clauses clauses)
    (show (clause.1, clause.2.unboosted) ∈ unboosted_clauses clauses from ?_)
  rw [unboosted_clauses_eq_map]
  exact List.mem_map_of_mem hmem

omit [CommRing 𝕜] in
theorem mem_sub_queries {query : BoostedQuery L 𝕜} (h : query ∈ sub_queries clauses) :
    ∃ clause ∈ clauses, clause.2 = query := by
  obtain ⟨clause, hclause, heq⟩ := List.mem_map.1 h
  grind

theorem scorer_clauses_yields {n depth : ℕ}
    {query_scorer : BoostedQuery L 𝕜 → Search (QueryScorer L 𝕜)} (h : Query.Sound B docs)
    (hdepth : B.depth n ≤ depth) (queries : List (BoostedQuery L 𝕜))
    (hlevels : ∀ query ∈ queries, Query.levels query.unboosted ≤ n)
    (hscorer : ∀ query ∈ queries, Query.Yields B (Query.selects B docs) (query_scorer query)
      (Serves S depth 0 (selects B docs query) (score_of B docs S query))) :
    Query.Yields B (Query.selects B docs) (scorer_clauses (matcher B n) query_scorer queries)
      (List.Forall₂ (Ready S depth 0)
        (queries.map fun query => (selects B docs query, score_of B docs S query))) := by
  induction queries with
  | nil => exact .pure .nil
  | cons query queries ih =>
      rw [List.forall_mem_cons] at hlevels hscorer
      refine (Query.matcher_selects h n query.unboosted hlevels.1).bind fun m hm => ?_
      refine hscorer.1.bind fun s hs => ?_
      refine (ih hlevels.2 hscorer.2).bind fun clauses hclauses => .pure ?_
      obtain ⟨hinv, hrem, hlow⟩ := hm.mono hdepth
      exact .cons ⟨hinv, hlow.le, fun d _ => by rw [hrem]; rfl, hs⟩ hclauses

/-- **The scorer of a query serves the documents that it selects.** -/
theorem scorer_yields (h : Query.Sound B docs) : ∀ (n : ℕ) (query : BoostedQuery L 𝕜) (depth : ℕ),
    Query.levels query.unboosted ≤ n → B.depth n ≤ depth →
      Query.Yields B (Query.selects B docs) (scorer B n query)
        (Serves S depth 0 (selects B docs query) (score_of B docs S query)) := by
  have hleaf : ∀ (n depth : ℕ) (l : L) (boost : 𝕜),
      Query.Yields B (Query.selects B docs) (scorer B n (leaf l boost))
        (Serves S depth 0 (selects B docs (leaf l boost)) (score_of B docs S (leaf l boost))) := by
    intro n depth l boost
    have hscore : score_of B docs S (leaf l boost) = fun d => boost * S.leaf_score l d := by
      funext d
      rw [score_of]
    rw [scorer, hscore]
    exact .pure (serves_leaf l boost)
  intro n
  induction n with
  | zero =>
      intro query depth hlevels _
      cases query with
      | leaf l boost => exact hleaf 0 depth l boost
      | boolean clauses m boost => simp [unboosted, Query.levels] at hlevels
  | succ n ih =>
      intro query depth hlevels hdepth
      cases query with
      | leaf l boost => exact hleaf (n + 1) depth l boost
      | boolean clauses m boost =>
          rw [unboosted, Query.levels] at hlevels
          have hle : B.depth n ≤ depth := by
            rw [Backend.depth] at hdepth ⊢
            omega
          rw [scorer, boolean_scorer]
          by_cases hnone : sub_queries clauses = []
          · rw [if_pos (List.isEmpty_iff.2 hnone)]
            have hscore : score_of B docs S (boolean clauses m boost) = fun d =>
                boost * S.fallback_score ((queries_by_occur clauses .filter).map unboosted) d := by
              funext d
              rw [score_of, if_pos hnone]
            rw [hscore]
            exact .pure (serves_fallback _ boost)
          · rw [if_neg (by simpa using hnone)]
            have hscore : score_of B docs S (boolean clauses m boost) = fun d =>
                total_of ((sub_queries clauses).map fun query =>
                  (selects B docs query, score_of B docs S query)) d * boost := by
              funext d
              rw [score_of, if_neg hnone, total_of_sub_queries]
            have hbelow : ∀ query ∈ sub_queries clauses, Query.levels query.unboosted ≤ n := by
              intro query hquery
              obtain ⟨clause, hclause, rfl⟩ := mem_sub_queries hquery
              have := levels_clause hclause
              omega
            rw [hscore]
            exact (scorer_clauses_yields h hle _ hbelow fun query hquery =>
              ih query depth (hbelow query hquery) hle).bind fun clauses hclauses =>
                .pure (serves_boolean hclauses)

/-- What a query's search reports: its documents in ascending order, scored. -/
def stream (B : Backend L) (docs : L → Finset ℕ) (S : Scoring L 𝕜) (query : BoostedQuery L 𝕜) :
    List (ScoredDoc 𝕜) :=
  hits_of (score_of B docs S query) ((selects B docs query).sort (· ≤ ·))

/-- **The serial search reports the documents that the query selects, each
with its score.** -/
theorem search_yields (h : Query.Sound B docs) {n : ℕ} {query : BoostedQuery L 𝕜}
    (hlevels : Query.levels query.unboosted ≤ n) :
    Query.Yields B (Query.selects B docs) (search B S n query) (· = stream B docs S query) := by
  rw [search]
  refine (Query.matcher_selects h n query.unboosted hlevels).bind fun m hm => ?_
  refine (scorer_yields (S := S) h n query (B.depth n) hlevels le_rfl).bind fun s hs => ?_
  refine (Query.Yields.lift (P := (· = (selects B docs query).sort (· ≤ ·))) hm.drain rfl).bind
    fun ds hds => ?_
  subst hds
  refine .lift (hs _ (Finset.sortedLT_sort _).pairwise fun d hd => ?_) rfl
  exact ⟨Nat.zero_le d, (Finset.mem_sort _).1 hd⟩

end Serial

end BoostedQuery

end Laurus
