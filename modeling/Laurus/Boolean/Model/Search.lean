import Laurus.Boolean.Model.Query
import Laurus.Search.Model.Collector
import Mathlib.Algebra.Order.Ring.Defs

/-!
# Scored boolean queries, serial and parallel

The scorers of `lexical/query/boolean.rs` and `lexical/query/scorer.rs`, and
the two searches of `inverted/searcher.rs` over the reader of one segment.
A scorer holds matchers that each document moves forward, so scoring a
document gives the scorer for the next. The hits are what a search offers to
a collector that is never full, whose `min_competitive` skips nothing.

A leaf's score is its boost times what `Scoring` gives. The sizes that order
the intersections, and the deadline, are left out. A `Should`-only clause
may be run by `BlockMaxOrExecutor` instead, which is exact, and a rewritten
leaf has the matcher and the scorer of its rewriting.
-/

namespace Laurus

variable {L 𝕜 : Type}

/-- A query with its boosts. -/
inductive BoostedQuery (L 𝕜 : Type)
  | leaf (query : L) (boost : 𝕜)
  | boolean (clauses : List (Occur × BoostedQuery L 𝕜)) (minimum_should_match : ℕ) (boost : 𝕜)

/-- The scores of what is not a boolean query. -/
structure Scoring (L 𝕜 : Type) where
  /-- A leaf of boost 1, for a document that it matches. -/
  leaf_score : L → ℕ → 𝕜
  /-- The `BM25Scorer` of a boolean query that scores no clause, of boost 1,
  for the term frequency that the matcher of these `Filter` clauses reports. -/
  fallback_score : List (Query L) → ℕ → 𝕜

/-- A scorer; `BooleanScorer` has the scorer and the matcher of each clause. -/
inductive QueryScorer (L 𝕜 : Type)
  | leaf (query : L) (boost : 𝕜)
  | fallback (filters : List (Query L)) (boost : 𝕜)
  | boolean (clauses : List (QueryScorer L 𝕜 × Matcher)) (boost : 𝕜)

namespace BoostedQuery

def boost : BoostedQuery L 𝕜 → 𝕜
  | leaf _ boost => boost
  | boolean _ _ boost => boost

def set_boost : BoostedQuery L 𝕜 → 𝕜 → BoostedQuery L 𝕜
  | leaf query _, boost => leaf query boost
  | boolean clauses minimum_should_match _, boost => boolean clauses minimum_should_match boost

mutual

/-- The query without its boosts: its matcher and its key read none. -/
def unboosted : BoostedQuery L 𝕜 → Query L
  | leaf query _ => .leaf query
  | boolean clauses minimum_should_match _ =>
    .boolean (unboosted_clauses clauses) minimum_should_match

def unboosted_clauses : List (Occur × BoostedQuery L 𝕜) → List (Occur × Query L)
  | [] => []
  | (occur, query) :: clauses => (occur, unboosted query) :: unboosted_clauses clauses

end

/-- The queries of the clauses of one kind. -/
def queries_by_occur (clauses : List (Occur × BoostedQuery L 𝕜)) (occur : Occur) :
    List (BoostedQuery L 𝕜) := (clauses.filter fun clause => clause.1 = occur).map Prod.snd

/-- The queries that `BooleanQuery::scorer` collects. -/
def sub_queries (clauses : List (Occur × BoostedQuery L 𝕜)) : List (BoostedQuery L 𝕜) :=
  (clauses.filter fun clause => clause.1 = .must ∨ clause.1 = .should).map Prod.snd

section Validate

variable [LinearOrder 𝕜] [Zero 𝕜]

mutual

/-- `validate_boosts`: whether it accepts the boosts of the query and of its
clauses. -/
def validate_boosts : BoostedQuery L 𝕜 → Bool
  | leaf _ boost => decide (0 ≤ boost)
  | boolean clauses _ boost => decide (0 ≤ boost) && validate_clauses clauses

def validate_clauses : List (Occur × BoostedQuery L 𝕜) → Bool
  | [] => true
  | (_, query) :: clauses => validate_boosts query && validate_clauses clauses

end

end Validate

end BoostedQuery

/-! ## Scorers -/

namespace QueryScorer

section Score

variable [CommRing 𝕜] (S : Scoring L 𝕜) (depth : ℕ)

mutual

/-- `score`, with what it leaves of the scorer. -/
def score : QueryScorer L 𝕜 → ℕ → Option (𝕜 × QueryScorer L 𝕜)
  | leaf query boost, doc_id => some (boost * S.leaf_score query doc_id, leaf query boost)
  | fallback filters boost, doc_id =>
    some (boost * S.fallback_score filters doc_id, fallback filters boost)
  | boolean clauses boost, doc_id => do
    let (total_score, clauses) ← score_clauses clauses doc_id 0
    return (total_score * boost, boolean clauses boost)

/-- The loop over the clauses: one whose matcher stands on the document adds
its score. -/
def score_clauses : List (QueryScorer L 𝕜 × Matcher) → ℕ → 𝕜 →
    Option (𝕜 × List (QueryScorer L 𝕜 × Matcher))
  | [], _, total_score => some (total_score, [])
  | (scorer, matcher) :: clauses, doc_id, total_score => do
    let (found, matcher) ← (Matcher.ops depth).skip_to matcher doc_id
    if found = true ∧ (Matcher.ops depth).doc_id matcher = doc_id then do
      let (clause_score, scorer) ← score scorer doc_id
      let (total_score, clauses) ← score_clauses clauses doc_id (total_score + clause_score)
      return (total_score, (scorer, matcher) :: clauses)
    else do
      let (total_score, clauses) ← score_clauses clauses doc_id total_score
      return (total_score, (scorer, matcher) :: clauses)

end

/-- The scores of the documents of a search, one after another. -/
def score_docs : QueryScorer L 𝕜 → List ℕ → Option (List (ScoredDoc 𝕜))
  | _, [] => some []
  | scorer, doc_id :: docs => do
    let (score, scorer) ← score S depth scorer doc_id
    let hits ← score_docs scorer docs
    return { doc_id, score } :: hits

end Score

end QueryScorer

namespace BoostedQuery

section Search

variable (B : Backend L)

section Scorer

variable (query_matcher : BoostedQuery L 𝕜 → Search Matcher)
variable (query_scorer : BoostedQuery L 𝕜 → Search (QueryScorer L 𝕜))

/-- The loop of `BooleanScorer::new`. -/
def scorer_clauses : List (BoostedQuery L 𝕜) → Search (List (QueryScorer L 𝕜 × Matcher))
  | [] => pure []
  | query :: queries => do
    let matcher ← query_matcher query
    let scorer ← query_scorer query
    let clauses ← scorer_clauses queries
    return (scorer, matcher) :: clauses

/-- `BooleanQuery::scorer`. -/
def boolean_scorer (clauses : List (Occur × BoostedQuery L 𝕜)) (boost : 𝕜) :
    Search (QueryScorer L 𝕜) :=
  if (sub_queries clauses).isEmpty then
    pure (.fallback ((queries_by_occur clauses .filter).map unboosted) boost)
  else do
    let clauses ← scorer_clauses query_matcher query_scorer (sub_queries clauses)
    return .boolean clauses boost

end Scorer

/-- `Query::matcher`. -/
def matcher (levels : ℕ) (query : BoostedQuery L 𝕜) : Search Matcher :=
  Query.matcher B levels query.unboosted

/-- `Query::scorer`, for queries of at most so many levels. -/
def scorer : ℕ → BoostedQuery L 𝕜 → Search (QueryScorer L 𝕜)
  | _, leaf query boost => pure (.leaf query boost)
  | 0, boolean _ _ _ => throw ()
  | levels + 1, boolean clauses _ boost =>
    boolean_scorer (matcher B levels) (scorer levels) clauses boost

/-- The serial search: the matcher's documents, scored by the scorer. -/
def search [CommRing 𝕜] (S : Scoring L 𝕜) (levels : ℕ) (query : BoostedQuery L 𝕜) :
    Search (List (ScoredDoc 𝕜)) := do
  let matcher ← matcher B levels query
  let scorer ← scorer B levels query
  let docs ← Search.lift (drain_matcher (Matcher.ops (B.depth levels)) (2 ^ 64) matcher)
  Search.lift (scorer.score_docs S (B.depth levels) docs)

end Search

/-! ## The parallel search -/

/-- What the hits of the clauses are gathered into. -/
structure Gathered (𝕜 : Type) where
  must_bitmaps : List (Finset ℕ)
  should_bitmap : Finset ℕ
  must_not_bitmap : Finset ℕ
  scored_hits : List (ScoredDoc 𝕜)

namespace Gathered

def empty : Gathered 𝕜 :=
  { must_bitmaps := [], should_bitmap := ∅, must_not_bitmap := ∅, scored_hits := [] }

/-- The bitmap of some hits. -/
def bitmap (hits : List (ScoredDoc 𝕜)) : Finset ℕ := (hits.map ScoredDoc.doc_id).toFinset

/-- One clause's turn of the loop over `clause_results`. -/
def add (g : Gathered 𝕜) (occur : Occur) (hits : List (ScoredDoc 𝕜)) : Gathered 𝕜 :=
  match occur with
  | .must =>
    { g with must_bitmaps := g.must_bitmaps ++ [bitmap hits], scored_hits := g.scored_hits ++ hits }
  | .filter => { g with must_bitmaps := g.must_bitmaps ++ [bitmap hits] }
  | .should =>
    { g with
      should_bitmap := g.should_bitmap ∪ bitmap hits
      scored_hits := g.scored_hits ++ hits }
  | .must_not => { g with must_not_bitmap := g.must_not_bitmap ∪ bitmap hits }

/-- The intersection of the bitmaps, or the `Should` union where there are
none. -/
def candidate (g : Gathered 𝕜) : Finset ℕ :=
  match g.must_bitmaps with
  | [] => g.should_bitmap
  | bitmap :: bitmaps => bitmaps.foldl (· ∩ ·) bitmap

def survivor (g : Gathered 𝕜) (minimum_should_match : ℕ) : Finset ℕ :=
  (if g.must_bitmaps ≠ [] ∧ 0 < minimum_should_match then g.candidate ∩ g.should_bitmap
    else g.candidate) \ g.must_not_bitmap

section Scores

variable [CommRing 𝕜]

/-- `score_acc`: the scores of the survivors added up, 0 where there are none. -/
def score_acc (survivor : Finset ℕ) : List (ScoredDoc 𝕜) → (ℕ → 𝕜) → ℕ → 𝕜
  | [], acc => acc
  | hit :: hits, acc =>
    if hit.doc_id ∈ survivor then
      score_acc survivor hits (Function.update acc hit.doc_id (acc hit.doc_id + hit.score))
    else score_acc survivor hits acc

/-- What is offered to the collector. -/
def hits (g : Gathered 𝕜) (minimum_should_match : ℕ) (outer_boost : 𝕜) : List (ScoredDoc 𝕜) :=
  let survivor := g.survivor minimum_should_match
  (survivor.sort (· ≤ ·)).map fun doc_id =>
    { doc_id, score := score_acc survivor g.scored_hits (fun _ => 0) doc_id * outer_boost }

end Scores

end Gathered

/-- `usize::MAX`. -/
def UNBOUNDED : ℕ := 2 ^ 64 - 1

section Parallel

variable [CommRing 𝕜] [LinearOrder 𝕜] (B : Backend L) (S : Scoring L 𝕜) (levels : ℕ)

/-- The hits of one clause: what the unbounded collector returns. -/
def clause_hits (query : BoostedQuery L 𝕜) : Search (List (ScoredDoc 𝕜)) := do
  let hits ← search B S levels query
  return ((TopDocsCollector.new UNBOUNDED).collect_stream hits).results

/-- The loop over the clauses and their results. -/
def gather : List (Occur × BoostedQuery L 𝕜) → Gathered 𝕜 → Search (Gathered 𝕜)
  | [], g => pure g
  | (occur, query) :: clauses, g => do
    let hits ← clause_hits B S levels query
    gather clauses (g.add occur hits)

/-- `search_boolean_query_parallel`. -/
def search_boolean_query_parallel (clauses : List (Occur × BoostedQuery L 𝕜))
    (minimum_should_match : ℕ) (outer_boost : 𝕜) : Search (List (ScoredDoc 𝕜)) :=
  if clauses.isEmpty then pure []
  else if clauses.all fun clause => clause.1 = .must_not then
    search B S levels (boolean clauses minimum_should_match outer_boost)
  else
    match clauses with
    | [(_, clause_query)] =>
      search B S levels
        (if outer_boost ≠ 1 then clause_query.set_boost (clause_query.boost * outer_boost)
          else clause_query)
    | clauses => do
      let g ← gather B S levels clauses .empty
      return g.hits minimum_should_match outer_boost

end Parallel

end BoostedQuery

end Laurus
