import Mathlib.Data.List.Sort
import Mathlib.Order.WithBot

/-!
# Collecting the best (`lexical/query/collector.rs`, `TopDocsCollector`)

The `BinaryHeap` is the list of its entries in the order in which `pop`
takes them: a lower score first, and of equal scores the lower document.
`NEG_INFINITY` is `⊥`.
-/

namespace Laurus

section Collector

variable {𝕜 : Type} [LinearOrder 𝕜]

/-- `ScoredDoc`; also `SearchHit`, whose document is `None` here. -/
structure ScoredDoc (𝕜 : Type) where
  doc_id : ℕ
  score : 𝕜
  deriving DecidableEq, Repr

namespace ScoredDoc

/-- `cmp`: the hit that the heap gives up before the other. -/
def before (a b : ScoredDoc 𝕜) : Prop :=
  a.score < b.score ∨ (a.score = b.score ∧ a.doc_id ≤ b.doc_id)

instance : DecidableRel (@before 𝕜 _) := fun _ _ => instDecidableOr

/-- The order of `results`. -/
def ranks (a b : ScoredDoc 𝕜) : Prop := b.score ≤ a.score

instance : DecidableRel (@ranks 𝕜 _) := fun a b =>
  inferInstanceAs (Decidable (b.score ≤ a.score))

end ScoredDoc

/-- `TopDocsCollector`. -/
structure TopDocsCollector (𝕜 : Type) where
  max_docs : ℕ
  min_score : 𝕜
  hits : List (ScoredDoc 𝕜)
  total_hits : ℕ

namespace TopDocsCollector

def with_min_score (max_docs : ℕ) (min_score : 𝕜) : TopDocsCollector 𝕜 :=
  { max_docs, min_score, hits := [], total_hits := 0 }

/-- `hits.push`. -/
def push (hits : List (ScoredDoc 𝕜)) (doc : ScoredDoc 𝕜) : List (ScoredDoc 𝕜) :=
  hits.orderedInsert ScoredDoc.before doc

def collect (c : TopDocsCollector 𝕜) (doc_id : ℕ) (score : 𝕜) : TopDocsCollector 𝕜 :=
  let c := { c with total_hits := c.total_hits + 1 }
  if score < c.min_score then c
  else
    let scored_doc := { doc_id, score }
    if c.hits.length < c.max_docs then { c with hits := push c.hits scored_doc }
    else
      match c.hits with
      | [] => c
      | worst :: others =>
        if worst.score < score then { c with hits := push others scored_doc } else c

def min_competitive (c : TopDocsCollector 𝕜) : WithBot 𝕜 :=
  if c.hits.length < c.max_docs then ⊥
  else
    match c.hits with
    | [] => c.min_score
    | worst :: _ => worst.score

/-- `results`, by score descending. -/
def results (c : TopDocsCollector 𝕜) : List (ScoredDoc 𝕜) :=
  c.hits.insertionSort ScoredDoc.ranks

end TopDocsCollector

end Collector

section Fanout

/-!
## Searching segment by segment (`inverted/searcher.rs`, `search_per_segment_fanout`)

Each segment is searched with a collector of its own, and the partial lists
are offered to the caller's in the order of the segments. `needs_more` is
true throughout. What `results` returns is fixed up to the order of equal
scores: `iter` visits a `BinaryHeap` in an arbitrary order, and
`sort_unstable_by` may reorder what compares equal.
-/

variable {𝕜 : Type} [LinearOrder 𝕜] [Zero 𝕜]

namespace TopDocsCollector

/-- `TopDocsCollector::new`. -/
def new (max_docs : ℕ) : TopDocsCollector 𝕜 := with_min_score max_docs 0

omit [Zero 𝕜] in
/-- The collector after a stream of hits. -/
def collect_stream (c : TopDocsCollector 𝕜) (stream : List (ScoredDoc 𝕜)) : TopDocsCollector 𝕜 :=
  stream.foldl (fun c hit => c.collect hit.doc_id hit.score) c

omit [Zero 𝕜] in
/-- `results` may return a list. -/
structure MayReturn (c : TopDocsCollector 𝕜) (hits : List (ScoredDoc 𝕜)) : Prop where
  perm : hits.Perm c.hits
  sorted : hits.Pairwise ScoredDoc.ranks

end TopDocsCollector

/-- `search_per_segment_fanout` over segments with these matches may return a
list. -/
def search_per_segment_fanout (per_segment_k : ℕ) (segments : List (List (ScoredDoc 𝕜)))
    (hits : List (ScoredDoc 𝕜)) : Prop :=
  ∃ per_segment_results : List (List (ScoredDoc 𝕜)),
    List.Forall₂ (fun stream partial_hits =>
      ((TopDocsCollector.new per_segment_k).collect_stream stream).MayReturn partial_hits)
      segments per_segment_results ∧
    ((TopDocsCollector.new per_segment_k).collect_stream per_segment_results.flatten).MayReturn hits

end Fanout

end Laurus
