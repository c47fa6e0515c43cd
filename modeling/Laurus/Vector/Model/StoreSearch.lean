import Laurus.Common.Gather
import Laurus.Vector.Model.Fanout
import Mathlib.Algebra.Order.Field.Basic

/-!
# The search of the vector store (`vector/store.rs`)

What the index queries of a request give is combined: the answer of a single
one on a path of its own, those of several by the score mode. Similarities,
weights and scores are exact. The checks of the request, the fields that it
resolves to and the search of the index come before this; `field_hits` is
left out, always empty.
-/

namespace Laurus

/-- `VectorScoreMode`. -/
inductive VectorScoreMode
  | WeightedSum
  | MaxSim
  | LateInteraction
  deriving DecidableEq, Repr

/-- `VectorHit`. -/
@[ext] structure VectorHit (σ : Type) where
  doc_id : ℕ
  score : σ
  deriving DecidableEq, Repr

/-- `VectorSearchParams`, as far as the combination reads it. -/
structure VectorSearchParams (σ : Type) where
  limit : ℕ
  min_score : σ
  score_mode : VectorScoreMode
  /-- `FilterSet::contains`, of the allow-set if there is one. -/
  filter_set : Option (ℕ → Bool)

variable {V 𝕜 σ : Type}

/-- What the standard library leaves open: the order of a `HashMap`. -/
structure MapOrder (σ : Type) where
  into_iter : (AList fun _ : ℕ => σ) → List (ℕ × σ)
  perm : ∀ m, (into_iter m).Perm (m.entries.map fun e => (e.1, e.2))

/-- `select_nth_unstable_by`: what stands up to the place comes before what
stands after it. -/
structure UnstableSelect (α : Type) (le : α → α → Prop) where
  select : List α → ℕ → List α
  perm : ∀ items n, (select items n).Perm items
  split : ∀ items n, ∀ a ∈ (select items n).take (n + 1),
    ∀ b ∈ (select items n).drop (n + 1), le a b

section Order

variable [LinearOrder σ]

/-- The order of the hits: by score, the greatest first, then by document. -/
def VectorHit.le (a b : VectorHit σ) : Prop :=
  b.score < a.score ∨ (a.score = b.score ∧ a.doc_id ≤ b.doc_id)

instance : DecidableRel (VectorHit.le (σ := σ)) := fun _ _ =>
  inferInstanceAs (Decidable (_ ∨ _))

/-- An index query with its weight, and what the index gives for it: a
document once in each field, and in the query's field alone where it has
one. `validate` and the schema let no weight below 0 through. -/
structure IndexQuery (V 𝕜 σ : Type) [LE σ] [Zero σ] where
  field_name : Option String
  weight : σ
  results : List (VectorIndexQueryResult V 𝕜 σ)
  weight_nonneg : 0 ≤ weight
  once : (results.map VectorIndexQueryResult.key).Nodup
  targeted : ∀ field ∈ field_name, ∀ r ∈ results, r.field_name = field

/-- The filter of the results, before anything is combined. -/
def VectorSearchParams.passes (params : VectorSearchParams σ)
    (r : VectorIndexQueryResult V 𝕜 σ) : Bool :=
  (params.filter_set.all fun allowed => allowed r.doc_id) && decide (params.min_score ≤ r.similarity)

/-- `select_top_k_by_score`. -/
def select_top_k_by_score (select : UnstableSelect (VectorHit σ) VectorHit.le)
    (order : UnstableSort (VectorHit σ) VectorHit.le) (hits : List (VectorHit σ)) (limit : ℕ) :
    List (VectorHit σ) :=
  if 0 < min limit hits.length ∧ min limit hits.length < hits.length then
    order.sort ((select.select hits (min limit hits.length - 1)).take (min limit hits.length))
  else order.sort hits

end Order

section Search

variable [Field σ] [LinearOrder σ]

/-- The hits of a single index query, a document once for each result. -/
def fast_hits (params : VectorSearchParams σ) (q : IndexQuery V 𝕜 σ) : List (ℕ × σ) :=
  (q.results.filter params.passes).map fun r => (r.doc_id, r.similarity * q.weight)

/-- `search_impl`, of a single index query. -/
def search_fast (iter : MapOrder σ) (select : UnstableSelect (VectorHit σ) VectorHit.le)
    (order : UnstableSort (VectorHit σ) VectorHit.le) (params : VectorSearchParams σ)
    (q : IndexQuery V 𝕜 σ) : List (VectorHit σ) :=
  let hits := if q.field_name.isNone then
      iter.into_iter (gather_into keep_greater ∅ (fast_hits params q))
    else fast_hits params q
  select_top_k_by_score select order (hits.map fun hit => ⟨hit.1, hit.2⟩) params.limit

/-- `per_query_best`: the best similarity of each document. -/
def per_query_best (params : VectorSearchParams σ) (q : IndexQuery V 𝕜 σ) :
    AList fun _ : ℕ => σ :=
  gather_into keep_greater ∅
    ((q.results.filter params.passes).map fun r => (r.doc_id, r.similarity))

/-- What a score mode makes of a document's entry, from `or_insert(0.0)`. -/
def VectorScoreMode.merge (mode : VectorScoreMode) (entry : Option σ) (weighted_score : σ) : σ :=
  match mode with
  | .WeightedSum | .LateInteraction => entry.getD 0 + weighted_score
  | .MaxSim => if entry.getD 0 < weighted_score then weighted_score else entry.getD 0

/-- The weighted scores of a query, in the order of its map. -/
def weighted_scores (iter : MapOrder σ) (params : VectorSearchParams σ) (q : IndexQuery V 𝕜 σ) :
    List (ℕ × σ) :=
  (iter.into_iter (per_query_best params q)).map fun best => (best.1, best.2 * q.weight)

/-- `all_hits`. -/
def all_hits (iter : MapOrder σ) (params : VectorSearchParams σ)
    (queries : List (IndexQuery V 𝕜 σ)) : AList fun _ : ℕ => σ :=
  queries.foldl (fun hits q =>
    gather_into params.score_mode.merge hits (weighted_scores iter params q)) ∅

/-- `search_impl`, of several index queries. -/
def search_merged (iter : MapOrder σ) (order : UnstableSort (VectorHit σ) VectorHit.le)
    (params : VectorSearchParams σ) (queries : List (IndexQuery V 𝕜 σ)) : List (VectorHit σ) :=
  (order.sort ((iter.into_iter (all_hits iter params queries)).map fun hit =>
    ⟨hit.1, hit.2⟩)).take params.limit

/-- `search_impl`. -/
def search_impl (iter : MapOrder σ) (select : UnstableSelect (VectorHit σ) VectorHit.le)
    (order : UnstableSort (VectorHit σ) VectorHit.le) (params : VectorSearchParams σ) :
    List (IndexQuery V 𝕜 σ) → List (VectorHit σ)
  | [] => []
  | [q] => search_fast iter select order params q
  | queries => search_merged iter order params queries

end Search

end Laurus
