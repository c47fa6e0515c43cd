import Laurus.Lexical.Model.Phrase
import Laurus.Matcher.Model.Matcher

/-!
# Span queries (`lexical/query/span.rs`)

A span query gives, of a document, the stretches of positions it matches. The
errors of a reader, boosts, scores and the terms to highlight are left out;
positions, lengths and slops are `u32`, and the sum of the lengths is a `u64`
that fewer than 2^32 spans cannot exceed.
-/

namespace Laurus

/-- `Span`: `stop` is its `end`. -/
structure Span where
  start : ℕ
  stop : ℕ
  term : String
  deriving DecidableEq, Repr

namespace Span

/-- `length`, which saturates. -/
def length (s : Span) : ℕ := s.stop - s.start

/-- `overlaps`. -/
def overlaps (s other : Span) : Bool := s.start < other.stop && other.start < s.stop

/-- `contains`. -/
def contains (s other : Span) : Bool := s.start ≤ other.start && other.stop ≤ s.stop

/-- `distance_to`. -/
def distance_to (s other : Span) : ℕ :=
  if s.overlaps other then 0
  else if s.stop ≤ other.start then other.start - s.stop
  else s.start - other.stop

end Span

/-- `PostingIterator::skip_to` and `doc_id`: the first posting from a
document on, if it is of that document. -/
def skip_to_doc (postings : List TermPosting) (doc_id : ℕ) : Option TermPosting :=
  ((postings.dropWhile fun p => p.doc_id < doc_id).head?).filter fun p => p.doc_id = doc_id

/-- The span of a term at a position, which saturates at `u32::MAX`. -/
def term_span (term : String) (pos : ℕ) : Span :=
  let start := min pos (2 ^ 32 - 1)
  ⟨start, min (start + 1) (2 ^ 32 - 1), term⟩

/-- `dyn SpanQuery`: the implementations, their children boxed. -/
inductive SpanQuery
  /-- `SpanTermQuery`. -/
  | term (field term : String)
  /-- `SpanNearQuery`. -/
  | near (field : String) (clauses : List SpanQuery) (slop : ℕ) (in_order : Bool)
  /-- `SpanContainingQuery`. -/
  | containing (field : String) (big little : SpanQuery)
  /-- `SpanWithinQuery`. -/
  | within (field : String) (included exclude : SpanQuery) (distance : ℕ)

namespace SpanQuery

/-- `spans_satisfy_proximity`. -/
def spans_satisfy_proximity (slop : ℕ) (in_order : Bool) (spans : List Span) : Bool :=
  if spans.length < 2 then true
  else if in_order && (spans.zip spans.tail).any fun pair => pair.2.start < pair.1.start then false
  else
    let sorted_spans := spans.insertionSort fun a b => a.start ≤ b.start
    let total_span : Span :=
      ⟨(sorted_spans.head?.map Span.start).getD 0, (sorted_spans.getLast?.map Span.stop).getD 0,
        "combined"⟩
    let term_length := (sorted_spans.map Span.length).sum
    total_span.length - term_length ≤ slop

/-- `combine_spans`. -/
def combine_spans (spans : List Span) : Option Span :=
  (spans.map Span.start).min?.bind fun start => (spans.map Span.stop).max?.map fun stop =>
    ⟨start, stop, "near(" ++ ",".intercalate (spans.map Span.term) ++ ")"⟩

/-- What a choice of a span of each clause yields. -/
def near_span (slop : ℕ) (in_order : Bool) (spans : List Span) : Option Span :=
  if spans_satisfy_proximity slop in_order spans then combine_spans spans else none

/-- `find_near_spans`, over the clauses from an index on. -/
def find_near_spans (slop : ℕ) (in_order : Bool) : List (List Span) → List Span → List Span
  | [], current_spans => (near_span slop in_order current_spans).toList
  | spans :: clauses, current_spans =>
    spans.flatMap fun span => find_near_spans slop in_order clauses (current_spans ++ [span])

mutual

/-- `get_spans`. -/
def get_spans (reader : PostingsReader) (doc_id : ℕ) : SpanQuery → List Span
  | .term field word =>
    (((reader field word).bind fun postings => skip_to_doc postings doc_id).map fun p =>
      p.positions.map (term_span word)).getD []
  | .near _ clauses slop in_order =>
    find_near_spans slop in_order (get_clause_spans reader doc_id clauses) []
  | .containing _ big little =>
    (get_spans reader doc_id big).filter fun big_span =>
      (get_spans reader doc_id little).any fun little_span => big_span.contains little_span
  | .within _ included exclude distance =>
    (get_spans reader doc_id included).filter fun include_span =>
      (get_spans reader doc_id exclude).any fun exclude_span =>
        include_span.distance_to exclude_span ≤ distance

/-- The spans of each clause. -/
def get_clause_spans (reader : PostingsReader) (doc_id : ℕ) : List SpanQuery → List (List Span)
  | [] => []
  | clause :: clauses => get_spans reader doc_id clause :: get_clause_spans reader doc_id clauses

end

/-- The candidates of every clause, of none without clauses. -/
def intersect_candidates : List (List ℕ) → List ℕ
  | [] => []
  | first :: clauses => clauses.foldl (fun candidates clause_ids =>
      candidates.filter fun id => id ∈ clause_ids) first

mutual

/-- `candidate_doc_ids`: the sets are sorted at the end. -/
def candidate_doc_ids (reader : PostingsReader) : SpanQuery → List ℕ
  | .term field word => ((reader field word).getD []).map TermPosting.doc_id
  | .near _ clauses _ _ => sort_dedup (intersect_candidates (get_clause_candidates reader clauses))
  | .containing _ big little =>
    sort_dedup (candidate_doc_ids reader big ++ candidate_doc_ids reader little)
  | .within _ included exclude _ =>
    sort_dedup (candidate_doc_ids reader included ++ candidate_doc_ids reader exclude)

/-- The candidates of each clause. -/
def get_clause_candidates (reader : PostingsReader) : List SpanQuery → List (List ℕ)
  | [] => []
  | clause :: clauses => candidate_doc_ids reader clause :: get_clause_candidates reader clauses

end

end SpanQuery

/-- `SpanMatcher`. -/
structure SpanMatcher where
  doc_matches : List ℕ
  current_index : ℕ
  current_doc_id : ℕ
  deriving DecidableEq, Repr

namespace SpanMatcher

/-- `SpanMatcher::new`. -/
def new (span_query : SpanQuery) (reader : PostingsReader) : SpanMatcher :=
  let doc_matches := (span_query.candidate_doc_ids reader).filter fun doc_id =>
    !(span_query.get_spans reader doc_id).isEmpty
  ⟨doc_matches, 0, doc_matches.head?.getD END⟩

def doc_id (m : SpanMatcher) : ℕ :=
  if m.doc_matches.length ≤ m.current_index then END else m.current_doc_id

/-- The end of `next` and `skip_to`: on a document, or at the end. -/
def settle (m : SpanMatcher) : Bool × SpanMatcher :=
  if m.doc_matches.length ≤ m.current_index then (false, { m with current_doc_id := END })
  else (true, { m with current_doc_id := m.doc_matches.getD m.current_index END })

def next (m : SpanMatcher) : Bool × SpanMatcher :=
  settle { m with current_index := m.current_index + 1 }

def skip_to (m : SpanMatcher) (target : ℕ) : Bool × SpanMatcher :=
  let before := (m.doc_matches.drop m.current_index).takeWhile fun doc_id => doc_id < target
  settle { m with current_index := m.current_index + before.length }

def is_exhausted (m : SpanMatcher) : Bool := decide (m.doc_matches.length ≤ m.current_index)

end SpanMatcher

namespace SpanQueryBuilder

/-- `SpanQueryBuilder::phrase`: "a phrase query using span near with zero slop". -/
def phrase (field : String) (terms : List String) : SpanQuery :=
  .near field (terms.map fun term => .term field term) 0 true

end SpanQueryBuilder

end Laurus
