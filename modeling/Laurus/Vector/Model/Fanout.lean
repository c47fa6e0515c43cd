import Laurus.Common.ParCollect
import Laurus.Storage.Model.Files
import Laurus.Vector.Model.SegmentedIndex

/-!
# The fan-out search (`vector/index/segment/fanout.rs`)

Every sealed segment is probed by a searcher of its own, hits that a newer
segment holds a copy of are dropped, and the rest are merged by distance.
Distances are of any type that `total_cmp` orders, similarities of any that
can be compared; of a query and of its options the fan-out reads the budget
and the minimum similarity, and passes the rest on. The deletion bitmap is
the searchers' own. Time is left out.
-/

namespace Laurus

/-- `usize::MAX`. -/
def USIZE_MAX : ℕ := 2 ^ 64 - 1

/-- `usize::saturating_mul`. -/
def usize_saturating_mul (a b : ℕ) : ℕ := min (a * b) USIZE_MAX

/-- `sort_unstable_by`: it may reorder what compares equal. -/
structure UnstableSort (α : Type) (le : α → α → Prop) where
  sort : List α → List α
  perm : ∀ items, (sort items).Perm items
  sorted : ∀ items, (sort items).Pairwise le

/-- `VectorIndexQueryParams`. -/
structure VectorIndexQueryParams (σ : Type) where
  top_k : ℕ
  min_similarity : σ

/-- `VectorIndexQuery`: the query vector, the field, the filter and the other
options are `query`. -/
structure VectorIndexQuery (Q σ : Type) where
  query : Q
  params : VectorIndexQueryParams σ

/-- The query with another budget. -/
def VectorIndexQuery.with_top_k {Q σ : Type} (request : VectorIndexQuery Q σ) (top_k : ℕ) :
    VectorIndexQuery Q σ :=
  { request with params := { request.params with top_k } }

/-- `VectorIndexQueryResult`. -/
structure VectorIndexQueryResult (V 𝕜 σ : Type) where
  doc_id : ℕ
  field_name : String
  similarity : σ
  distance : 𝕜
  vector : Option V
  deriving DecidableEq

/-- The document and the field of a hit. -/
def VectorIndexQueryResult.key {V 𝕜 σ : Type} (hit : VectorIndexQueryResult V 𝕜 σ) : VectorKey :=
  (hit.doc_id, hit.field_name)

def SCORE_BASIS_METADATA_KEY : String := "score_basis"

def SCORE_BASIS_F32_RERANK : String := "f32-rerank"

/-- `VectorIndexQueryResults`. -/
structure VectorIndexQueryResults (V 𝕜 σ : Type) where
  results : List (VectorIndexQueryResult V 𝕜 σ)
  candidates_examined : ℕ
  query_metadata : List (String × String)

namespace VectorIndexQueryResults

variable {V 𝕜 σ : Type}

/-- `new`. -/
def new : VectorIndexQueryResults V 𝕜 σ :=
  { results := [], candidates_examined := 0, query_metadata := [] }

/-- Whether the scores are on the exact f32 rerank basis. -/
def f32_rerank (results : VectorIndexQueryResults V 𝕜 σ) : Bool :=
  results.query_metadata.lookup SCORE_BASIS_METADATA_KEY = some SCORE_BASIS_F32_RERANK

end VectorIndexQueryResults

/-- `DistanceMetric`, as far as the fan-out calls it. -/
structure DistanceMetric (V Q 𝕜 σ : Type) where
  distance_with_prepared : Q → V → Except LaurusError 𝕜
  distance_to_similarity : 𝕜 → σ

/-- `VectorIndexSearcher::search`. -/
abbrev VectorIndexSearcher (V Q 𝕜 σ : Type) :=
  VectorIndexQuery Q σ → Except LaurusError (VectorIndexQueryResults V 𝕜 σ)

/-- `SegmentFanoutSearcher`, newest reader first. -/
structure SegmentFanoutSearcher (V Q 𝕜 σ : Type) where
  readers : List (SealedSegment V)
  make_searcher : SealedSegment V → Except LaurusError (VectorIndexSearcher V Q 𝕜 σ)

namespace SegmentFanoutSearcher

variable {V Q 𝕜 σ : Type}

/-- `shadowed`. -/
def shadowed (self : SegmentFanoutSearcher V Q 𝕜 σ) (idx : ℕ) (key : VectorKey) : Bool :=
  (self.readers.take idx).any fun r => r.contains_vector key

/-- The refill loop of `probe_segment`, over the searches with the budgets
`top_k`: what is kept, what was examined, whether the basis is exact. -/
def probe_loop (search : ℕ → Except LaurusError (VectorIndexQueryResults V 𝕜 σ))
    (masked : VectorKey → Bool) (limit top_k candidates_examined : ℕ) (exact_basis : Bool) :
    Except LaurusError (List (VectorIndexQueryResult V 𝕜 σ) × ℕ × Bool) :=
  match search top_k with
  | .error e => .error e
  | .ok results =>
    let candidates_examined := candidates_examined + results.candidates_examined
    let exact_basis := exact_basis || results.f32_rerank
    let returned := results.results.length
    let kept := results.results.filter fun hit => ! masked hit.key
    if limit ≤ kept.length ∨ returned < top_k then .ok (kept, candidates_examined, exact_basis)
    -- the overflow guard: the budget is saturated
    else if usize_saturating_mul top_k 2 = top_k then .ok (kept, candidates_examined, exact_basis)
    else
      probe_loop search masked limit (usize_saturating_mul top_k 2) candidates_examined exact_basis
-- each budget is closer to `usize::MAX` than the one before
termination_by (USIZE_MAX - top_k) + (top_k - USIZE_MAX)
decreasing_by
  grind [usize_saturating_mul]

/-- `rescore_on_shared_basis`, one hit of it. -/
def rescore_hit (metric : DistanceMetric V Q 𝕜 σ) (query : Q) (reader : SealedSegment V)
    (hit : VectorIndexQueryResult V 𝕜 σ) : Except LaurusError (VectorIndexQueryResult V 𝕜 σ) :=
  match hit.vector.or (reader.get_vector hit.key) with
  | some v => do
    let distance ← metric.distance_with_prepared query v
    return { hit with distance, similarity := metric.distance_to_similarity distance }
  | none => return hit

/-- `rescore_on_shared_basis`. -/
def rescore_on_shared_basis (metric : DistanceMetric V Q 𝕜 σ) (query : Q)
    (reader : SealedSegment V) (hits : List (VectorIndexQueryResult V 𝕜 σ)) :
    Except LaurusError (List (VectorIndexQueryResult V 𝕜 σ)) :=
  hits.mapM (rescore_hit metric query reader)

section Search

variable [LE σ] [DecidableLE σ]

/-- `probe_segment`, of the reader at an index. -/
def probe_reader (self : SegmentFanoutSearcher V Q 𝕜 σ) (metric : DistanceMetric V Q 𝕜 σ)
    (request : VectorIndexQuery Q σ) (idx : ℕ) (reader : SealedSegment V) :
    Except LaurusError (List (VectorIndexQueryResult V 𝕜 σ) × ℕ) := do
  let limit := request.params.top_k
  let searcher ← self.make_searcher reader
  let (kept, candidates_examined, exact_basis) ←
    probe_loop (fun top_k => searcher (request.with_top_k top_k)) (self.shadowed idx) limit
      (usize_saturating_mul limit 2) 0 false
  if exact_basis then return (kept, candidates_examined)
  else
    let kept ← rescore_on_shared_basis metric request.query reader kept
    return (kept.filter fun hit => request.params.min_similarity ≤ hit.similarity,
      candidates_examined)

/-- `probe_segment`. Only indices of readers are probed. -/
def probe_segment (self : SegmentFanoutSearcher V Q 𝕜 σ) (metric : DistanceMetric V Q 𝕜 σ)
    (request : VectorIndexQuery Q σ) (idx : ℕ) :
    Except LaurusError (List (VectorIndexQueryResult V 𝕜 σ) × ℕ) :=
  match self.readers[idx]? with
  | some reader => self.probe_reader metric request idx reader
  | none => .ok ([], 0)

/-- `probe_all_serial`. -/
def probe_all_serial {α : Type} (self : SegmentFanoutSearcher V Q 𝕜 σ)
    (probe : ℕ → Except LaurusError α) : Except LaurusError (List α) :=
  (List.range self.readers.length).mapM probe

/-- The probes of a native target, in the order the threads get to them. -/
def probe_all {α : Type} (self : SegmentFanoutSearcher V Q 𝕜 σ) (schedule : List ℕ)
    (probe : ℕ → Except LaurusError α) : Except LaurusError (List α) :=
  if 1 < self.readers.length then par_collect probe self.readers.length schedule
  else self.probe_all_serial probe

variable [LinearOrder 𝕜]

/-- The order of the merged hits: the distance, then the document. -/
def hit_le (a b : VectorIndexQueryResult V 𝕜 σ) : Prop :=
  a.distance < b.distance ∨ a.distance = b.distance ∧ a.doc_id ≤ b.doc_id

instance : DecidableRel (@hit_le V 𝕜 σ _) := fun a b =>
  inferInstanceAs (Decidable (a.distance < b.distance ∨ a.distance = b.distance ∧
    a.doc_id ≤ b.doc_id))

/-- `search`, with a way to run the probes. -/
def search_by (self : SegmentFanoutSearcher V Q 𝕜 σ)
    (probe_all : (ℕ → Except LaurusError (List (VectorIndexQueryResult V 𝕜 σ) × ℕ)) →
      Except LaurusError (List (List (VectorIndexQueryResult V 𝕜 σ) × ℕ)))
    (metric : DistanceMetric V Q 𝕜 σ)
    (order : UnstableSort (VectorIndexQueryResult V 𝕜 σ) hit_le) (request : VectorIndexQuery Q σ) :
    Except LaurusError (VectorIndexQueryResults V 𝕜 σ) :=
  let limit := request.params.top_k
  if limit = 0 ∨ self.readers.isEmpty then .ok .new
  else
    match probe_all (self.probe_segment metric request) with
    | .error e => .error e
    | .ok per_segment =>
      let results := per_segment.foldl (fun results probed => results ++ probed.1) []
      .ok {
        results := (order.sort results).take limit
        candidates_examined := per_segment.foldl (fun examined probed => examined + probed.2) 0
        query_metadata := [] }

/-- `search` on a native target. -/
def search (self : SegmentFanoutSearcher V Q 𝕜 σ) (schedule : List ℕ) :
    DistanceMetric V Q 𝕜 σ → UnstableSort (VectorIndexQueryResult V 𝕜 σ) hit_le →
      VectorIndexQuery Q σ → Except LaurusError (VectorIndexQueryResults V 𝕜 σ) :=
  self.search_by (self.probe_all schedule)

/-- `search` on wasm32. -/
def search_serial (self : SegmentFanoutSearcher V Q 𝕜 σ) :
    DistanceMetric V Q 𝕜 σ → UnstableSort (VectorIndexQueryResult V 𝕜 σ) hit_le →
      VectorIndexQuery Q σ → Except LaurusError (VectorIndexQueryResults V 𝕜 σ) :=
  self.search_by self.probe_all_serial

end Search

end SegmentFanoutSearcher

end Laurus
