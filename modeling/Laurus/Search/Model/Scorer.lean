import Mathlib.Algebra.Order.Field.Basic
import Mathlib.Tactic.Ring

/-!
# The BM25 scorer and its bounds (`lexical/query/scorer.rs`)

Scores are in an ordered field in the place of `f32`. `compute_idf` takes a
logarithm and stays outside: `cached_idf` is the value it gave. Of the
scorer's fields `total_term_freq` and `field_doc_count` are not read by the
formula and are left out.
-/

namespace Laurus

section Scorer

/-- `BlockMax`. -/
structure BlockMax (𝕜 : Type) where
  last_doc_id : ℕ
  max_factor : 𝕜
  deriving DecidableEq, Repr

variable {𝕜 : Type} [Field 𝕜] [LinearOrder 𝕜]

/-- `compute_right_max`: the greatest factor from each block on. -/
def compute_right_max : List (BlockMax 𝕜) → List 𝕜
  | [] => []
  | block :: blocks =>
    let out := compute_right_max blocks
    out.head?.elim block.max_factor (max block.max_factor) :: out

/-- `BM25Scorer`. The field lengths are `get` of the reader's table. -/
structure BM25Scorer (𝕜 : Type) [Field 𝕜] [LinearOrder 𝕜] where
  doc_freq : ℕ
  avg_field_length : 𝕜
  total_docs : ℕ
  boost : 𝕜
  k1 : 𝕜
  b : 𝕜
  cached_idf : 𝕜
  max_score_factor : 𝕜
  block_max : List (BlockMax 𝕜)
  right_max : List 𝕜
  lengths : Option (ℕ → Option ℕ)
  right_max_eq : right_max = compute_right_max block_max

namespace BM25Scorer

/-- `DEFAULT_K1`. -/
def DEFAULT_K1 : 𝕜 := 6 / 5

/-- `DEFAULT_B`. -/
def DEFAULT_B : 𝕜 := 3 / 4

def with_block_max (doc_freq : ℕ) (avg_field_length : 𝕜) (total_docs : ℕ)
    (boost cached_idf max_score_factor : 𝕜) (block_max : List (BlockMax 𝕜)) : BM25Scorer 𝕜 where
  doc_freq
  avg_field_length
  total_docs
  boost
  k1 := DEFAULT_K1
  b := DEFAULT_B
  cached_idf
  max_score_factor
  block_max
  right_max := compute_right_max block_max
  lengths := none
  right_max_eq := rfl

def new (doc_freq : ℕ) (avg_field_length : 𝕜) (total_docs : ℕ) (boost cached_idf : 𝕜) :
    BM25Scorer 𝕜 :=
  with_block_max doc_freq avg_field_length total_docs boost cached_idf 0 []

def with_field_lengths (s : BM25Scorer 𝕜) (lengths : Option (ℕ → Option ℕ)) : BM25Scorer 𝕜 :=
  { s with lengths }

def set_boost (s : BM25Scorer 𝕜) (boost : 𝕜) : BM25Scorer 𝕜 := { s with boost }

/-- The factor by which `tf` discounts a long field. -/
def norm_factor (s : BM25Scorer 𝕜) (field_length : 𝕜) : 𝕜 :=
  if s.avg_field_length = 0 then 1
  else 1 - s.b + s.b * (field_length / s.avg_field_length)

def tf (s : BM25Scorer 𝕜) (term_freq field_length : 𝕜) : 𝕜 :=
  if term_freq = 0 then 0
  else term_freq * (s.k1 + 1) / (term_freq + s.k1 * s.norm_factor field_length)

/-- The length that `score` falls back to. -/
def field_len (s : BM25Scorer 𝕜) (doc_id : ℕ) (field_length : Option 𝕜) : 𝕜 :=
  match field_length with
  | some len => len
  | none =>
    match s.lengths.bind fun get => get doc_id with
    | some len => (len : 𝕜)
    | none => s.avg_field_length

def score (s : BM25Scorer 𝕜) (doc_id : ℕ) (term_freq : 𝕜) (field_length : Option 𝕜) : 𝕜 :=
  if s.doc_freq = 0 ∨ s.total_docs = 0 ∨ term_freq = 0 then 0
  else s.boost * s.cached_idf * s.tf term_freq (s.field_len doc_id field_length)

/-- Whether the bounds that the index holds are those of these parameters. -/
def default_params (s : BM25Scorer 𝕜) : Bool := s.k1 = DEFAULT_K1 ∧ s.b = DEFAULT_B

def max_score (s : BM25Scorer 𝕜) : 𝕜 :=
  if s.doc_freq = 0 ∨ s.total_docs = 0 then 0
  else
    let tf_upper_bound :=
      if 0 < s.max_score_factor ∧ s.default_params then s.max_score_factor else s.k1 + 1
    s.boost * s.cached_idf * tf_upper_bound

/-- `partition_point(|block| block.last_doc_id < doc_id)`, over the blocks in
ascending order. -/
def partition_point (s : BM25Scorer 𝕜) (doc_id : ℕ) : ℕ :=
  s.block_max.findIdx fun block => doc_id ≤ block.last_doc_id

/-- A bound read off a table with an entry for each block. -/
def bound_at (s : BM25Scorer 𝕜) (factors : List 𝕜) (doc_id : ℕ) : 𝕜 :=
  if s.block_max.isEmpty then s.max_score
  else if s.doc_freq = 0 ∨ s.total_docs = 0 then 0
  else if ! s.default_params then s.max_score
  else
    match factors[s.partition_point doc_id]? with
    | none => 0
    | some factor => s.boost * s.cached_idf * factor

def current_block_max_score (s : BM25Scorer 𝕜) (doc_id : ℕ) : 𝕜 :=
  s.bound_at (s.block_max.map BlockMax.max_factor) doc_id

def block_max_score_at (s : BM25Scorer 𝕜) (doc_id : ℕ) : 𝕜 := s.bound_at s.right_max doc_id

/-- `next_block_boundary`, the addition saturating. -/
def next_block_boundary (s : BM25Scorer 𝕜) (doc_id : ℕ) : Option ℕ :=
  if s.block_max.isEmpty then none
  else if ! s.default_params then none
  else
    match s.block_max[s.partition_point doc_id]? with
    | none => some (2 ^ 64 - 1)
    | some block => some (min (block.last_doc_id + 1) (2 ^ 64 - 1))

end BM25Scorer

end Scorer

section CompoundScorer

/-!
## Compound scorers (`lexical/query/scorer.rs`)

A `Scorer` is what a trait object answers. A clause's matcher is asked for
the document that is scored: `matched` has the term frequency it then gives,
of the documents it matches.
-/

variable {𝕜 : Type} [Field 𝕜] [LinearOrder 𝕜]

/-- `Scorer`. -/
structure Scorer (𝕜 : Type) where
  score : ℕ → 𝕜 → Option 𝕜 → 𝕜
  max_score : 𝕜
  block_max_score_at : ℕ → 𝕜
  current_block_max_score : ℕ → 𝕜
  next_block_boundary : ℕ → Option ℕ

/-- A scorer that has the defaults of the trait for its block bounds. -/
def Scorer.of_max_score (score : ℕ → 𝕜 → Option 𝕜 → 𝕜) (max_score : 𝕜) : Scorer 𝕜 where
  score
  max_score
  block_max_score_at := fun _ => max_score
  current_block_max_score := fun _ => max_score
  next_block_boundary := fun _ => none

def BM25Scorer.scorer (s : BM25Scorer 𝕜) : Scorer 𝕜 where
  score := s.score
  max_score := s.max_score
  block_max_score_at := s.block_max_score_at
  current_block_max_score := s.current_block_max_score
  next_block_boundary := s.next_block_boundary

/-- A clause: its scorer and its matcher. -/
structure ScorerClause (𝕜 : Type) where
  scorer : Scorer 𝕜
  matched : ℕ → Option ℕ

/-- `BooleanScorer`. -/
structure BooleanScorer (𝕜 : Type) where
  clauses : List (ScorerClause 𝕜)
  boost : 𝕜

namespace BooleanScorer

/-- One clause of `score`. -/
def score_clause (doc_id : ℕ) (total_score : 𝕜) (clause : ScorerClause 𝕜) : 𝕜 :=
  match clause.matched doc_id with
  | some term_freq => total_score + clause.scorer.score doc_id term_freq none
  | none => total_score

/-- `score`. -/
def score (s : BooleanScorer 𝕜) (doc_id : ℕ) : 𝕜 :=
  s.clauses.foldl (score_clause doc_id) 0 * s.boost

/-- The sum of a bound of the clauses: `max_score`, `block_max_score_at` and
`current_block_max_score`. -/
def sum_of (s : BooleanScorer 𝕜) (bound : Scorer 𝕜 → 𝕜) : 𝕜 :=
  s.clauses.foldl (fun total clause => total + bound clause.scorer) 0 * s.boost

/-- The loop of `next_block_boundary`. -/
def boundary_loop (doc_id : ℕ) : List (ScorerClause 𝕜) → Option ℕ → Option ℕ
  | [], min_boundary => min_boundary
  | clause :: clauses, min_boundary =>
    match clause.scorer.next_block_boundary doc_id with
    | none => none
    | some b => boundary_loop doc_id clauses (some (min_boundary.elim b fun m => min m b))

def scorer (s : BooleanScorer 𝕜) : Scorer 𝕜 where
  score := fun doc_id _ _ => s.score doc_id
  max_score := s.sum_of Scorer.max_score
  block_max_score_at := fun doc_id => s.sum_of fun scorer => scorer.block_max_score_at doc_id
  current_block_max_score := fun doc_id =>
    s.sum_of fun scorer => scorer.current_block_max_score doc_id
  next_block_boundary := fun doc_id => boundary_loop doc_id s.clauses none

end BooleanScorer

/-- `DisjunctionMaxScorer`. -/
structure DisjunctionMaxScorer (𝕜 : Type) where
  clauses : List (ScorerClause 𝕜)
  tie_breaker : 𝕜
  boost : 𝕜

namespace DisjunctionMaxScorer

/-- The best score of the clauses so far, and the sum of the others. -/
structure BestAndOthers (𝕜 : Type) where
  max_score : 𝕜
  sum_of_others : 𝕜
  matched : Bool

/-- Before the first clause. -/
def BestAndOthers.start : BestAndOthers 𝕜 :=
  { max_score := 0, sum_of_others := 0, matched := false }

/-- One clause of `score`. -/
def score_clause (doc_id : ℕ) (acc : BestAndOthers 𝕜) (clause : ScorerClause 𝕜) :
    BestAndOthers 𝕜 :=
  match clause.matched doc_id with
  | none => acc
  | some term_freq =>
    let score := clause.scorer.score doc_id term_freq none
    if acc.max_score < score then
      { max_score := score, sum_of_others := acc.sum_of_others + acc.max_score, matched := true }
    else { acc with sum_of_others := acc.sum_of_others + score, matched := true }

/-- `score`. -/
def score (s : DisjunctionMaxScorer 𝕜) (doc_id : ℕ) : 𝕜 :=
  let acc := s.clauses.foldl (score_clause doc_id) .start
  if ! acc.matched then 0
  else (acc.max_score + s.tie_breaker * acc.sum_of_others) * s.boost

/-- `max_score`: the greatest bound and the sum of all. -/
def max_score (s : DisjunctionMaxScorer 𝕜) : 𝕜 :=
  let acc := s.clauses.foldl (fun (acc : 𝕜 × 𝕜) clause =>
    let m := clause.scorer.max_score
    (if acc.1 < m then m else acc.1, acc.2 + m)) (0, 0)
  (acc.1 + s.tie_breaker * (acc.2 - acc.1)) * s.boost

def scorer (s : DisjunctionMaxScorer 𝕜) : Scorer 𝕜 :=
  .of_max_score (fun doc_id _ _ => s.score doc_id) s.max_score

end DisjunctionMaxScorer

end CompoundScorer

end Laurus
