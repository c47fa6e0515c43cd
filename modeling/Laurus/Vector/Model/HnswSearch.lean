import Laurus.Common.PriorityHeap
import Laurus.Vector.Model.Fanout
import Laurus.Vector.Model.HnswGraph
import Mathlib.Data.Finset.Card
import Mathlib.Order.OrderDual

/-!
# The HNSW graph search (`vector/index/hnsw/searcher.rs`, `graph.rs`)

`search_graph` over one segment: the allow-set scan, the greedy descent,
the two layer-0 traversals and the tail they share. The distance of the
record at a position is a parameter of any linearly ordered type, and so
is `missing`, which stands for `f32::MAX`; the prepared query, the storage
kinds behind the distance and the prefetch hints are in neither. The rerank stage is
left out: the tail is the one of a request or a reader without it.
-/

namespace Laurus

/-! ## The graph -/

/-- `OrdinalHnswGraph`, with what `from_parts` checks of it. -/
structure OrdinalHnswGraph where
  entry_point : Option ℕ
  max_level : ℕ
  doc_ids : List ℕ
  nodes : List Layers
  length_nodes : nodes.length = doc_ids.length
  entry_lt : ∀ ord, entry_point = some ord → ord < doc_ids.length
  neighbors_lt : ∀ layers ∈ nodes, ∀ neighbors ∈ layers, ∀ ord ∈ neighbors, ord < doc_ids.length
  /-- Ordinals are `u32`. -/
  few : doc_ids.length < 2 ^ 32

namespace OrdinalHnswGraph

/-- `node_count`. -/
def node_count (graph : OrdinalHnswGraph) : ℕ := graph.nodes.length

/-- `doc_id`, of an ordinal in range. -/
def doc_id (graph : OrdinalHnswGraph) (ord : ℕ) : ℕ := graph.doc_ids.getD ord 0

/-- `neighbors`, of an ordinal in range. -/
def neighbors (graph : OrdinalHnswGraph) (ord level : ℕ) : Option (List ℕ) :=
  (graph.nodes.getD ord [])[level]?

end OrdinalHnswGraph

/-! ## The reader -/

/-- The position of a document's vector in a field: records are indexed in
order, and the last one of a key stays. -/
def position_index (vector_ids : List (ℕ × String)) (field : String) (doc_id : ℕ) : Option ℕ :=
  ((vector_ids.zipIdx.filter fun record => record.1 = (doc_id, field)).getLast?).map Prod.snd

/-- `HnswIndexReader`, as far as the search reads it, with what `load`
checks of it. -/
structure HnswIndexReader (V : Type) where
  /-- The documents and fields of the records, in order. -/
  vector_ids : List (ℕ × String)
  field_dict : List String
  /-- The vector of the record at a position. -/
  vector_at : ℕ → V
  /-- Whether the storage is a pool that holds the field. -/
  pooled : String → Bool
  graph : OrdinalHnswGraph
  deletion_bitmap : Option (Finset ℕ)
  fields_known : ∀ record ∈ vector_ids, record.2 ∈ field_dict
  pooled_known : ∀ field, pooled field = true → field ∈ field_dict
  sorted : (vector_ids.map Prod.fst).Pairwise (· ≤ ·)
  ordinals : graph.doc_ids = unique_ids none (vector_ids.map Prod.fst)
  /-- Positions are `u32`, and the last value marks a document without one. -/
  few_records : vector_ids.length < U32_MAX

namespace HnswIndexReader

variable {V : Type}

/-- `is_deleted`. -/
def is_deleted (reader : HnswIndexReader V) (doc_id : ℕ) : Bool :=
  match reader.deletion_bitmap with
  | some bitmap => doc_id ∈ bitmap
  | none => false

/-- `has_deletions`. -/
def has_deletions (reader : HnswIndexReader V) : Bool :=
  match reader.deletion_bitmap with
  | some bitmap => 0 < bitmap.card
  | none => false

/-- `VectorStorage::get`, as the position of the vector. -/
def position (reader : HnswIndexReader V) (field : String) (doc_id : ℕ) : Option ℕ :=
  position_index reader.vector_ids field doc_id

/-- `get_vector`, as the position of the vector. -/
def get_position (reader : HnswIndexReader V) (field : String) (doc_id : ℕ) : Option ℕ :=
  if reader.is_deleted doc_id then none else reader.position field doc_id

/-- Whether ordinals are positions: one field, and one record a document. -/
def identity (reader : HnswIndexReader V) : Bool :=
  reader.field_dict.dedup.length ≤ 1 && reader.vector_ids.length = reader.graph.doc_ids.length

/-- `field_ord_to_pos`. -/
def field_ord_to_pos (reader : HnswIndexReader V) (field : String) : Option (List ℕ) :=
  if reader.identity then none
  else some (reader.graph.doc_ids.map fun id => (reader.position field id).getD U32_MAX)

end HnswIndexReader

/-! ## The request -/

/-- `FilterSet`: the allowed ids, in the order they are iterated. -/
structure FilterSet where
  ids : List ℕ
  nodup : ids.Nodup

namespace FilterSet

/-- `contains`. -/
def contains (filter : FilterSet) (id : ℕ) : Bool := id ∈ filter.ids

/-- `len`. -/
def len (filter : FilterSet) : ℕ := filter.ids.length

end FilterSet

/-- `VectorIndexQuery`, with the options the graph search reads. -/
structure HnswQuery (σ : Type) where
  params : VectorIndexQueryParams σ
  ef_search : Option ℕ
  rerank_factor : Option ℕ
  include_vectors : Bool
  filter : Option FilterSet

/-- `MAX_VISIT_FACTOR`. -/
def MAX_VISIT_FACTOR : ℕ := 16

/-- `Candidate`. -/
structure Candidate (𝕜 : Type) where
  ord : ℕ
  distance : 𝕜
  deriving DecidableEq, Repr

/-- `ResultCandidate`. -/
structure ResultCandidate (𝕜 : Type) where
  id : ℕ
  distance : 𝕜
  deriving DecidableEq, Repr

section Search

variable {V 𝕜 σ : Type} [LinearOrder 𝕜]

/-- The frontier pops a nearest node, the result heap a furthest one. -/
structure SearchHeaps (𝕜 : Type) [LinearOrder 𝕜] where
  candidates : PriorityHeap (Candidate 𝕜) (fun a b => b.distance ≤ a.distance)
  found : PriorityHeap (ResultCandidate 𝕜) (fun a b => a.distance ≤ b.distance)

/-- One search of a reader: the searcher's default, and the distances. -/
structure HnswSearcher (V 𝕜 σ : Type) where
  reader : HnswIndexReader V
  default_ef_search : ℕ
  /-- From the query to the record at a position. -/
  distance_at : ℕ → 𝕜
  /-- `f32::MAX`. -/
  missing : 𝕜
  distance_to_similarity : 𝕜 → σ

namespace HnswSearcher

/-- `effective_ef`. -/
def effective_ef (searcher : HnswSearcher V 𝕜 σ) (request : HnswQuery σ) : ℕ :=
  let user_ef := request.ef_search.getD searcher.default_ef_search
  let rerank := max (request.rerank_factor.getD 1) 1
  max (max user_ef (usize_saturating_mul request.params.top_k rerank)) request.params.top_k

/-! ## Distances -/

/-- `QuantizedSearchCtx::distance_ord`. -/
def distance_ord (searcher : HnswSearcher V 𝕜 σ) (ord : ℕ) : Option (List ℕ) → 𝕜
  | none => searcher.distance_at ord
  | some table =>
    let pos := table.getD ord U32_MAX
    if pos = U32_MAX then searcher.missing else searcher.distance_at pos

/-- `QuantizedSearchCtx::distance_doc`. -/
def distance_doc (searcher : HnswSearcher V 𝕜 σ) (field : String) (doc_id : ℕ) : 𝕜 :=
  match searcher.reader.position field doc_id with
  | some pos => searcher.distance_at pos
  | none => searcher.missing

/-- `calc_dist`. -/
def calc_dist (searcher : HnswSearcher V 𝕜 σ) (field : String) (doc_id : ℕ) : 𝕜 :=
  if searcher.reader.pooled field then searcher.distance_doc field doc_id
  else match searcher.reader.get_position field doc_id with
    | some pos => searcher.distance_at pos
    | none => searcher.missing

/-- `calc_dist_ord`. -/
def calc_dist_ord (searcher : HnswSearcher V 𝕜 σ) (field : String) (ord : ℕ) : 𝕜 :=
  if searcher.reader.pooled field then
    searcher.distance_ord ord (searcher.reader.field_ord_to_pos field)
  else searcher.calc_dist field (searcher.reader.graph.doc_id ord)

/-! ## The greedy descent -/

/-- One pass over the neighbours: the nearest so far, and whether it
changed. -/
def greedy_pass (dist : ℕ → 𝕜) (neighbors : List ℕ) (curr : Candidate 𝕜) : Candidate 𝕜 × Bool :=
  neighbors.foldl (fun st neighbor =>
    if dist neighbor < st.1.distance then ({ ord := neighbor, distance := dist neighbor }, true)
    else st) (curr, false)

/-- The loop at one level; `none` when the turns do not suffice. -/
def greedy_level (graph : OrdinalHnswGraph) (dist : ℕ → 𝕜) (level : ℕ) :
    (turns : ℕ) → Candidate 𝕜 → Option (Candidate 𝕜)
  | 0, _ => none
  | turns + 1, curr =>
    match graph.neighbors curr.ord level with
    | none => some curr
    | some neighbors =>
      if (greedy_pass dist neighbors curr).2 then
        greedy_level graph dist level turns (greedy_pass dist neighbors curr).1
      else some (greedy_pass dist neighbors curr).1

/-- The levels down to 1. -/
def descend (graph : OrdinalHnswGraph) (dist : ℕ → 𝕜) (turns : ℕ) :
    (level : ℕ) → Candidate 𝕜 → Option (Candidate 𝕜)
  | 0, curr => some curr
  | level + 1, curr => do
    let curr ← greedy_level graph dist (level + 1) turns curr
    descend graph dist turns level curr

/-! ## The layer-0 traversals -/

/-- The state of a traversal. -/
structure Traversal (𝕜 : Type) where
  candidates : List (Candidate 𝕜)
  found : List (ResultCandidate 𝕜)
  /-- The ones of the bitmap. -/
  visited : Finset ℕ
  n_visited : ℕ

/-- What a traversal is run with. -/
structure TraversalArgs (𝕜 : Type) [LinearOrder 𝕜] where
  heaps : SearchHeaps 𝕜
  dist : ℕ → 𝕜
  missing : 𝕜
  ef_search : ℕ
  /-- What may enter the result heap. -/
  admitted : ℕ → Bool
  /-- The cap on visits, where there is one. -/
  max_visits : Option ℕ

/-- The result heap after a push, kept to `ef_search`. -/
def TraversalArgs.push_found (args : TraversalArgs 𝕜) (found : List (ResultCandidate 𝕜))
    (entry : ResultCandidate 𝕜) : List (ResultCandidate 𝕜) :=
  if args.ef_search < (entry :: found).length then
    match args.heaps.found.pop (entry :: found) with
    | some (_, rest) => rest
    | none => entry :: found
  else entry :: found

/-- One neighbour of the node expanded. -/
def visit (graph : OrdinalHnswGraph) (args : TraversalArgs 𝕜) (t : Traversal 𝕜) (neighbor : ℕ) :
    Traversal 𝕜 :=
  if neighbor ∈ t.visited then t
  else
    let t := { t with visited := insert neighbor t.visited, n_visited := t.n_visited + 1 }
    let d := args.dist neighbor
    let furthest_dist := ((args.heaps.found.peek t.found).map ResultCandidate.distance).getD
      args.missing
    if d < furthest_dist ∨ t.found.length < args.ef_search then
      -- the frontier goes through every node, also one that is not admitted
      let t := { t with candidates := { ord := neighbor, distance := d } :: t.candidates }
      if args.admitted (graph.doc_id neighbor) then
        { t with found := args.push_found t.found { id := graph.doc_id neighbor, distance := d } }
      else t
    else t

/-- Whether the node popped is too far, or the cap is met. -/
def stops (args : TraversalArgs 𝕜) (t : Traversal 𝕜) (curr : Candidate 𝕜) : Bool :=
  ((args.heaps.found.peek t.found).any fun furthest =>
    furthest.distance < curr.distance && args.ef_search ≤ t.found.length) ||
  args.max_visits.any fun max_visits => max_visits ≤ t.n_visited

/-- The loop; `none` when the turns do not suffice. -/
def traverse (graph : OrdinalHnswGraph) (args : TraversalArgs 𝕜) :
    (turns : ℕ) → Traversal 𝕜 → Option (Traversal 𝕜)
  | 0, _ => none
  | turns + 1, t =>
    match args.heaps.candidates.pop t.candidates with
    | none => some t
    | some (curr, rest) =>
      if stops args t curr then some { t with candidates := rest }
      else
        let neighbors := (graph.neighbors curr.ord 0).getD []
        traverse graph args turns (neighbors.foldl (visit graph args) { t with candidates := rest })

/-- The state at the start, the entry seeded when it is admissible. -/
def seed (graph : OrdinalHnswGraph) (curr : Candidate 𝕜) (entry_admitted : Bool) : Traversal 𝕜 where
  candidates := [curr]
  found := if entry_admitted then [{ id := graph.doc_id curr.ord, distance := curr.distance }] else []
  visited := {curr.ord}
  n_visited := 1

/-- The admission test: in the filter, and not deleted. -/
def admits (searcher : HnswSearcher V 𝕜 σ) (request : HnswQuery σ) (doc_id : ℕ) : Bool :=
  request.filter.all (fun filter => filter.contains doc_id) &&
    !(searcher.reader.has_deletions && searcher.reader.is_deleted doc_id)

/-- The bookkeeping traversal's. -/
def bookkeeping_args (searcher : HnswSearcher V 𝕜 σ) (heaps : SearchHeaps 𝕜)
    (request : HnswQuery σ) (field : String) : TraversalArgs 𝕜 where
  heaps := heaps
  dist := searcher.calc_dist_ord field
  missing := searcher.missing
  ef_search := searcher.effective_ef request
  admitted := searcher.admits request
  max_visits := some (usize_saturating_mul
    (max (searcher.effective_ef request) request.params.top_k) MAX_VISIT_FACTOR)

/-- The plain traversal's. -/
def plain_args (searcher : HnswSearcher V 𝕜 σ) (heaps : SearchHeaps 𝕜)
    (request : HnswQuery σ) (field : String) : TraversalArgs 𝕜 where
  heaps := heaps
  dist := searcher.calc_dist_ord field
  missing := searcher.missing
  ef_search := searcher.effective_ef request
  admitted := fun _ => true
  max_visits := none

/-! ## The tail and the modes -/

section Tail

variable [LT σ] [DecidableLT σ]

/-- The result of a candidate of the heap, or nothing. -/
def result_of (searcher : HnswSearcher V 𝕜 σ) (request : HnswQuery σ) (field : String)
    (c : ResultCandidate 𝕜) : Option (VectorIndexQueryResult V 𝕜 σ) :=
  if c.distance = searcher.missing then none
  else
    let similarity := searcher.distance_to_similarity c.distance
    if similarity < request.params.min_similarity then none
    else
      let vector := if request.include_vectors
        then (searcher.reader.get_position field c.id).map searcher.reader.vector_at else none
      some {
        doc_id := c.id
        field_name := field
        similarity := similarity
        distance := c.distance
        vector := vector }

/-- `finalize_graph_results`. -/
def finalize_graph_results (searcher : HnswSearcher V 𝕜 σ) (request : HnswQuery σ) (field : String)
    (found : List (ResultCandidate 𝕜)) (candidates_examined : ℕ) :
    VectorIndexQueryResults V 𝕜 σ where
  results := ((found.filterMap (searcher.result_of request field)).insertionSort
    SegmentFanoutSearcher.hit_le).take
    request.params.top_k
  candidates_examined := candidates_examined
  query_metadata := []

/-- The allow-set scan. -/
def allow_set_scan (searcher : HnswSearcher V 𝕜 σ) (request : HnswQuery σ) (field : String)
    (filter : FilterSet) : VectorIndexQueryResults V 𝕜 σ :=
  let live := filter.ids.filter fun doc_id => !searcher.reader.is_deleted doc_id
  let scored := live.map fun doc_id =>
    ({ id := doc_id, distance := searcher.calc_dist field doc_id } : ResultCandidate 𝕜)
  let found := scored.filter fun c => c.distance ≠ searcher.missing
  searcher.finalize_graph_results request field found filter.len

/-- The node the layer-0 traversal starts at. -/
def layer0_start (searcher : HnswSearcher V 𝕜 σ) (field : String) (turns entry_ord : ℕ) :
    Option (Candidate 𝕜) :=
  descend searcher.reader.graph (searcher.calc_dist_ord field) turns
    searcher.reader.graph.max_level
    { ord := entry_ord, distance := searcher.calc_dist_ord field entry_ord }

/-- A graph traversal from its start on. -/
def graph_results (searcher : HnswSearcher V 𝕜 σ) (request : HnswQuery σ) (field : String)
    (turns : ℕ) (args : TraversalArgs 𝕜) (curr : Candidate 𝕜) :
    Option (VectorIndexQueryResults V 𝕜 σ) := do
  let entry_admitted := args.admitted (searcher.reader.graph.doc_id curr.ord)
  let t ← traverse searcher.reader.graph args turns
    (seed searcher.reader.graph curr entry_admitted)
  return searcher.finalize_graph_results request field t.found t.visited.card

/-- The arguments of the traversal the request takes. -/
def traversal_args (searcher : HnswSearcher V 𝕜 σ) (heaps : SearchHeaps 𝕜) (request : HnswQuery σ)
    (field : String) : TraversalArgs 𝕜 :=
  let needs_bookkeeping := request.filter.isSome || searcher.reader.has_deletions
  if needs_bookkeeping then searcher.bookkeeping_args heaps request field
  else searcher.plain_args heaps request field

/-- The filter, when it is small enough to be scanned. -/
def small_filter (searcher : HnswSearcher V 𝕜 σ) (request : HnswQuery σ) : Option FilterSet :=
  request.filter.filter fun filter => filter.len ≤ searcher.effective_ef request

/-- `search_graph`; `none` when the turns do not suffice. -/
def search_graph (searcher : HnswSearcher V 𝕜 σ) (heaps : SearchHeaps 𝕜) (request : HnswQuery σ)
    (field : String) (turns : ℕ) : Option (VectorIndexQueryResults V 𝕜 σ) :=
  match searcher.reader.graph.entry_point with
  | none => some .new
  | some entry_ord =>
    match searcher.small_filter request with
    | some filter => some (searcher.allow_set_scan request field filter)
    | none => do
      let curr ← searcher.layer0_start field turns entry_ord
      searcher.graph_results request field turns
        (searcher.traversal_args heaps request field) curr

end Tail

end HnswSearcher

end Search

end Laurus
