import Laurus.Common.Float64
import Laurus.Search.Model.Collector
import Mathlib.Data.List.Lex
import Mathlib.Data.String.Basic
import Mathlib.Tactic.Ring

/-!
# Sorting by a field (`lexical/query/collector.rs`, `inverted/searcher.rs`)

A segment has the points that its documents have in the field's index, the
value that each document sorts by, and the matches that the search of its
view reports. The `BinaryHeap` is the list of its entries, from the first to
the worst. What no comparison reads of a value is left out, and so are the
deadline and the waves' threads.
-/

namespace Laurus

/-! ## Values -/

/-- `as f64` on an integer, and `datetime_to_point`. -/
structure PointSpace where
  of_int64 : ℤ → F64
  of_datetime : ℤ → F64

/-- `FieldValue`. -/
inductive FieldValue
  | null
  | bool (b : Bool)
  | int64 (v : ℤ)
  | float64 (v : F64)
  | text (s : String)
  | bytes (b : List (Fin 256))
  | vector
  | datetime (t : ℤ)
  | geo (lat lon : F64)
  | geo_ecef (x y z : F64)
  | int64_array (vs : List ℤ)
  | float64_array (vs : List F64)
  | geo_array (ps : List (F64 × F64))
  | geo_ecef_array (ps : List (F64 × F64 × F64))
  | datetime_array (ts : List ℤ)
  | bool_array (bs : List Bool)
  | text_array (ss : List String)
  | bytes_array (bs : List (List (Fin 256)))
  | vector_array
  deriving DecidableEq, Repr

variable (P : PointSpace)

/-- `analyze_field_value`: the points that a value is indexed by, the first
coordinate of each. -/
def points_of : FieldValue → List F64
  | .int64 v => [P.of_int64 v]
  | .float64 v => [v]
  | .datetime t => [P.of_datetime t]
  | .geo lat _ => [lat]
  | .geo_ecef x _ _ => [x]
  | .int64_array vs => vs.map P.of_int64
  | .float64_array vs => vs
  | .geo_array ps => ps.map Prod.fst
  | .geo_ecef_array ps => ps.map Prod.fst
  | .datetime_array ts => ts.map P.of_datetime
  | _ => []

def sort_type_rank : FieldValue → ℕ
  | .null => 0
  | .bool _ => 1
  | .int64 _ => 2
  | .float64 _ => 2
  | .datetime _ => 3
  | .text _ => 4
  | .geo _ _ => 5
  | .geo_ecef _ _ _ => 6
  | .bytes _ => 7
  | .vector => 8
  | .int64_array _ => 9
  | .float64_array _ => 10
  | .geo_array _ => 11
  | .geo_ecef_array _ => 12
  | .datetime_array _ => 13
  | .bool_array _ => 14
  | .text_array _ => 15
  | .bytes_array _ => 16
  | .vector_array => 17

def compare_sort_key : FieldValue → FieldValue → Ordering
  | .null, .null => .eq
  | .null, _ => .gt
  | _, .null => .lt
  | .text a, .text b => cmp a b
  | .int64 a, .int64 b => cmp a b
  | .float64 a, .float64 b => a.total_cmp b
  | .int64 a, .float64 b => (P.of_int64 a).total_cmp b
  | .float64 a, .int64 b => a.total_cmp (P.of_int64 b)
  | .bool a, .bool b => cmp a b
  | .datetime a, .datetime b => cmp a b
  | .geo lat lon, .geo lat' lon' => (lat.total_cmp lat').then (lon.total_cmp lon')
  | .bytes a, .bytes b => cmp a b
  | a, b => cmp (sort_type_rank a) (sort_type_rank b)

/-! ## Hits -/

variable {𝕜 : Type}

/-- `FieldHit`; also `FieldScoredDoc`, whose direction the heap has. -/
structure FieldHit (𝕜 : Type) where
  doc_id : ℕ
  score : 𝕜
  value : FieldValue
  deriving DecidableEq, Repr

namespace FieldHit

variable (ascending : Bool)

/-- `FieldScoredDoc::cmp`: less is better. -/
def rank (a b : FieldHit 𝕜) : Ordering :=
  let key := compare_sort_key P a.value b.value
  let by_rank := if ascending then key else key.swap
  by_rank.then (cmp a.doc_id b.doc_id)

/-- No worse. -/
def before (a b : FieldHit 𝕜) : Prop := a.rank P ascending b ≠ .gt

instance : DecidableRel (before P ascending : FieldHit 𝕜 → FieldHit 𝕜 → Prop) := fun _ _ =>
  instDecidableNot

/-- What a `SearchHit` keeps. -/
def search_hit (hit : FieldHit 𝕜) : ScoredDoc 𝕜 := { doc_id := hit.doc_id, score := hit.score }

end FieldHit

/-- `FieldTopK`. -/
structure FieldTopK (𝕜 : Type) where
  max_docs : ℕ
  ascending : Bool
  hits : List (FieldHit 𝕜)

namespace FieldTopK

def new (max_docs : ℕ) (ascending : Bool) : FieldTopK 𝕜 := { max_docs, ascending, hits := [] }

def push (c : FieldTopK 𝕜) (hit : FieldHit 𝕜) : FieldTopK 𝕜 :=
  if c.max_docs = 0 then c
  else if c.hits.length < c.max_docs then
    { c with hits := c.hits.orderedInsert (FieldHit.before P c.ascending) hit }
  else
    match c.hits.getLast? with
    | some worst =>
      if hit.rank P c.ascending worst = .lt then
        { c with hits := c.hits.dropLast.orderedInsert (FieldHit.before P c.ascending) hit }
      else c
    | none => c

end FieldTopK

/-! ## Segments -/

/-- A segment, for the field: the points of each document, what
`get_field_value` reads, and what the search of its view reports. -/
structure SortSegment (𝕜 : Type) where
  points : List (List F64)
  value : ℕ → FieldValue
  hits : List (ScoredDoc 𝕜)

/-- `SegmentSortRange`. -/
structure SegmentSortRange where
  min : F64
  max : F64
  covers_every_doc : Bool
  deriving DecidableEq, Repr

/-- `segment_sort_range`, from the header of the field's tree. -/
def segment_sort_range (seg : SortSegment 𝕜) : Option SegmentSortRange :=
  if seg.points.flatten = [] then none
  else some
    { min := seg.points.flatten.foldl F64.total_min F64.MAX
      max := seg.points.flatten.foldl F64.total_max F64.MIN
      covers_every_doc := decide (seg.points.flatten.length = seg.points.length) }

def sort_key_as_point : FieldValue → Option F64
  | .int64 v => some (P.of_int64 v)
  | .float64 v => some v
  | .datetime t => some (P.of_datetime t)
  | _ => none

def lead_floor (hits : List (FieldHit 𝕜)) (limit : ℕ) : Option F64 :=
  if hits.length < limit then none
  else hits.getLast?.bind fun worst => sort_key_as_point P worst.value

def segment_can_contribute (range : Option SegmentSortRange) (floor : Option F64)
    (ascending : Bool) : Bool :=
  match range, floor with
  | some range, some floor =>
    if ascending then range.min.le floor
    else !range.covers_every_doc || floor.le range.max
  | _, _ => true

/-- Whether `cur` makes the better lead. -/
def leads (ascending : Bool) (cur best : SegmentSortRange) : Bool :=
  if ascending then cur.min.lt best.min else best.max.lt cur.max

def best_segment_index (ranges : List (Option SegmentSortRange)) (ascending : Bool) : Option ℕ :=
  match ranges.zipIdx.filterMap fun entry => entry.1.map fun range => (entry.2, range) with
  | [] => none
  | first :: rest =>
    some (rest.foldl (fun best cur => if leads ascending cur.2 best.2 then cur else best) first).1

def pruning_is_possible (ranges : List (Option SegmentSortRange)) (lead : ℕ) (ascending : Bool) :
    Bool :=
  match ranges[lead]?.join with
  | none => false
  | some lead_range =>
    let tightest_floor := if ascending then lead_range.min else lead_range.max
    ranges.zipIdx.any fun entry =>
      decide (entry.2 ≠ lead) && !segment_can_contribute entry.1 (some tightest_floor) ascending

section Fanout

variable [LinearOrder 𝕜] (ascending : Bool) (limit : ℕ) (min_score : 𝕜)

/-- The hits of a segment that its collector ranks. -/
def ranked_hits (seg : SortSegment 𝕜) : List (FieldHit 𝕜) :=
  (seg.hits.filter fun hit => min_score ≤ hit.score).map fun hit =>
    { doc_id := hit.doc_id, score := hit.score, value := seg.value hit.doc_id }

/-- `collect_segment`: the `TopFieldCollector` over the hits, and its count of
all of them. -/
def collect_segment (seg : SortSegment 𝕜) : List (FieldHit 𝕜) × ℕ :=
  (((ranked_hits min_score seg).foldl (FieldTopK.push P) (FieldTopK.new limit ascending)).hits,
    seg.hits.length)

variable [Zero 𝕜]

/-- `ranges`: empty where nothing may be pruned. -/
def sort_ranges (segments : List (SortSegment 𝕜)) : List (Option SegmentSortRange) :=
  if min_score ≤ 0 ∧ 1 < segments.length then segments.map segment_sort_range else []

/-- `lead`. -/
def lead_segment (segments : List (SortSegment 𝕜)) : Option ℕ :=
  (best_segment_index (sort_ranges min_score segments) ascending).filter fun i =>
    pruning_is_possible (sort_ranges min_score segments) i ascending

/-- What the lead is collected to, in the first wave. -/
def lead_result (segments : List (SortSegment 𝕜)) : Option (List (FieldHit 𝕜) × ℕ) :=
  (lead_segment ascending min_score segments).bind fun i =>
    segments[i]?.map (collect_segment P ascending limit min_score)

/-- Whether a segment is only counted in the second wave. -/
def skips (segments : List (SortSegment 𝕜)) (i : ℕ) : Bool :=
  (lead_segment ascending min_score segments).isSome &&
    !segment_can_contribute (sort_ranges min_score segments)[i]?.join
      ((lead_result P ascending limit min_score segments).bind fun result =>
        lead_floor P result.1 limit) ascending

/-- The results of both waves, the lead's last. -/
def wave_results (segments : List (SortSegment 𝕜)) : List (List (FieldHit 𝕜) × ℕ) :=
  ((segments.zipIdx.filter fun entry =>
      decide (some entry.2 ≠ lead_segment ascending min_score segments)).map fun entry =>
    if skips P ascending limit min_score segments entry.2 then ([], entry.1.hits.length)
    else collect_segment P ascending limit min_score entry.1) ++
  (lead_result P ascending limit min_score segments).toList

/-- `search_field_sorted_fanout`: the hits and their count. -/
def search_field_sorted_fanout (segments : List (SortSegment 𝕜)) : List (ScoredDoc 𝕜) × ℕ :=
  let results := wave_results P ascending limit min_score segments
  let merged := (results.flatMap Prod.fst).foldl (FieldTopK.push P) (FieldTopK.new limit ascending)
  (merged.hits.map FieldHit.search_hit, (results.map Prod.snd).sum)

end Fanout

end Laurus
