import Laurus.Common.Bytes
import Laurus.Common.Comp
import Laurus.Storage.Model.Structured
import Mathlib.Data.List.Sort

/-!
# The HNSW graph block (`vector/index/hnsw/writer.rs`, `graph.rs`)

The graph as the writer keeps it, keyed by doc id; the block `write` emits
for it, keyed by rank; the two loaders, over the bytes of the segment
file; and of `build_hnsw_graph` what it does to the levels: the nodes it
keeps and adds, the lists `insert_one` and the repair pass rewrite, and
the conversion at its end. Distances decide only which lists are
rewritten, so the rewrites are a parameter, and every order of the
parallel inserts is among its values.
-/

namespace Laurus

/-- A node's neighbour lists, level 0 first. -/
abbrev Layers := List (List ℕ)

/-! ## The graph -/

/-- `HashMap<u64, Vec<Vec<u64>>>`, each key once. -/
abbrev NodeMap := List (ℕ × Layers)

/-- `HashMap::insert`. -/
def NodeMap.insert (nodes : NodeMap) (doc_id : ℕ) (layers : Layers) : NodeMap :=
  nodes.filter (fun node => node.1 ≠ doc_id) ++ [(doc_id, layers)]

/-- `HnswGraph`: `index_to_id` and `nodes` side by side. -/
structure HnswGraph where
  entry_point : Option ℕ
  max_level : ℕ
  nodes : NodeMap
  deriving DecidableEq, Repr

namespace HnswGraph

/-- `contains_node`. -/
def contains_node (graph : HnswGraph) (doc_id : ℕ) : Bool :=
  graph.nodes.any fun node => node.1 = doc_id

/-- `node_count`. -/
def node_count (graph : HnswGraph) : ℕ := graph.nodes.length

/-- `get_node_layers`. -/
def get_node_layers (graph : HnswGraph) (doc_id : ℕ) : Option Layers := graph.nodes.lookup doc_id

/-- `sorted_nodes`. -/
def sorted_nodes (graph : HnswGraph) : List (ℕ × Layers) :=
  graph.nodes.insertionSort fun a b => a.1 ≤ b.1

end HnswGraph

/-! ## Writing -/

/-- The unique ids of a sorted record sequence, after the last one pushed. -/
def unique_ids : Option ℕ → List ℕ → List ℕ
  | _, [] => []
  | last, doc_id :: records =>
    if last = some doc_id then unique_ids last records
    else doc_id :: unique_ids (some doc_id) records

/-- `u32::MAX`. -/
def U32_MAX : ℕ := 2 ^ 32 - 1

/-- A number `as u32`, little-endian. -/
def u32_le (value : ℕ) : Bytes := Bytes.ofNatLE 4 value

/-- `ord_of_doc`. -/
def ord_of_doc (ids : List ℕ) (doc_id : ℕ) : Except LaurusError ℕ :=
  if doc_id ∈ ids then .ok (ids.idxOf doc_id)
  else .error (LaurusError.InvalidOperation
    (s!"HNSW graph references doc id {doc_id} that has no record in the segment; " ++
      "refusing to write a corrupt v2 graph block"))

/-- The entry point's ordinal. -/
def entry_ord_of (ids : List ℕ) : Option ℕ → Except LaurusError ℕ
  | some doc_id => ord_of_doc ids doc_id
  | none => .ok U32_MAX

/-- One level of a node. -/
def write_neighbors (ids : List ℕ) (neighbors : List ℕ) : Except LaurusError Bytes := do
  let ords ← neighbors.mapM (ord_of_doc ids)
  return u32_le neighbors.length ++ ords.flatMap u32_le

/-- The nodes from the rank `ord` on. -/
def write_nodes (ids : List ℕ) : (ord : ℕ) → List (ℕ × Layers) → Except LaurusError Bytes
  | _, [] => .ok []
  | ord, (doc_id, layers) :: nodes => do
    if ids[ord]? ≠ some doc_id then
      throw (LaurusError.InvalidOperation
        (s!"HNSW graph node order diverges from the record order at ordinal {ord} " ++
          s!"(graph {doc_id}, records {ids.getD ord 0}); " ++
          "refusing to write a corrupt v2 graph block"))
    let levels ← layers.mapM (write_neighbors ids)
    let rest ← write_nodes ids (ord + 1) nodes
    return u32_le layers.length ++ levels.flatten ++ rest

/-- The graph section of `write`, over the doc ids of `sorted_vectors`. -/
def write_graph_block (sorted_vectors : List ℕ) : Option HnswGraph → Except LaurusError Bytes
  | none => .ok [0]
  | some graph => do
    let ids := unique_ids none sorted_vectors
    if U32_MAX ≤ ids.length then
      throw (LaurusError.InvalidOperation
        (s!"HNSW segment has {ids.length} unique doc ids — the v2 ordinal graph format " ++
          "supports at most u32::MAX - 1 nodes per segment"))
    if graph.node_count ≠ ids.length then
      throw (LaurusError.InvalidOperation
        (s!"HNSW graph has {graph.node_count} nodes but the segment has {ids.length} unique " ++
          "record doc ids; refusing to write a corrupt v2 graph block"))
    let entry_ord ← entry_ord_of ids graph.entry_point
    let nodes ← write_nodes ids 0 graph.sorted_nodes
    return [1] ++ u32_le entry_ord ++ u32_le graph.max_level ++ u32_le ids.length ++ nodes

/-! ## Reading -/

/-- `StorageInput`: a file and where it is read. -/
structure StorageInput where
  file : Bytes
  position : ℕ
  deriving DecidableEq, Repr

/-- A computation that reads the segment file. -/
abbrev GraphRead := Comp Fault StorageInput

/-- A returned error ends the load. -/
def GraphRead.liftE {α : Type} : Except LaurusError α → GraphRead α
  | .ok a => pure a
  | .error e => throw (Fault.error e)

namespace StorageInput

/-- The unread bytes. -/
def rest (input : StorageInput) : Bytes := input.file.drop input.position

/-- `file_size.saturating_sub(stream_position)`. -/
def remaining (input : StorageInput) : ℕ := input.file.length - input.position

/-- The input past `bytes`. -/
def advance (input : StorageInput) (bytes : Bytes) : StorageInput :=
  { input with position := input.position + bytes.length }

/-- `read_exact` into a buffer of `length`. -/
def read_exact (length : ℕ) : GraphRead Bytes := do
  let input ← get
  if length ≤ input.remaining then
    let bytes := input.rest.take length
    set (input.advance bytes)
    return bytes
  else throw (Fault.error (LaurusError.Io "failed to fill whole buffer"))

/-- `read_exact` and `from_le_bytes`, for a word of `width` bytes. -/
def read_le (width : ℕ) : GraphRead ℕ := do
  return Bytes.toNatLE (← read_exact width)

/-- `with_capacity`: room for more entries than the whole file could hold is
a fault. -/
def reserve (count min_stride : ℕ) : GraphRead Unit := do
  let input ← get
  if input.file.length < count * min_stride then
    throw (Fault.overReserved count input.file.length)

/-- A count of entries of at least `min_stride` bytes is checked against the
bytes `available`, and room is reserved for it. -/
def bounded (count min_stride available : ℕ) (what : String) : GraphRead Unit := do
  let count ← GraphRead.liftE (checked_capacity_u64 count min_stride available what)
  reserve count min_stride

end StorageInput

open StorageInput Comp

/-- One level's neighbours, each of `stride` bytes and read by `read_id`. -/
def read_neighbors (read_id : GraphRead ℕ) (stride graph_remaining : ℕ) :
    GraphRead (List ℕ) := do
  let neighbor_count ← read_le 4
  bounded neighbor_count stride graph_remaining "hnsw neighbor_count"
  times neighbor_count read_id

/-- One node's levels. -/
def read_layers (read_id : GraphRead ℕ) (stride graph_remaining : ℕ) : GraphRead Layers := do
  let layer_count ← read_le 4
  bounded layer_count 4 graph_remaining "hnsw layer_count"
  times layer_count (read_neighbors read_id stride graph_remaining)

/-- `ParsedGraphBlock`: the entry point, the maximum level and the nodes, in
the order they are inserted. -/
structure ParsedGraphBlock where
  entry_point : Option ℕ
  max_level : ℕ
  nodes : List (ℕ × Layers)
  deriving DecidableEq, Repr

/-- `u64::MAX`. -/
def U64_MAX : ℕ := 2 ^ 64 - 1

/-- The nodes of a v1 block: their count is checked with the bytes left. -/
def read_nodes_v1 (node_count : ℕ) : GraphRead (List (ℕ × Layers)) := do
  let input ← get
  let graph_remaining := input.remaining
  bounded node_count 12 graph_remaining "hnsw node_count"
  times node_count do
    let doc_id ← read_le 8
    let layers ← read_layers (read_le 8) 8 graph_remaining
    return (doc_id, layers)

/-- `load_graph_block_v1`. -/
def load_graph_block_v1 : GraphRead ParsedGraphBlock := do
  let entry_point_raw ← read_le 8
  let entry_point := if entry_point_raw = U64_MAX then none else some entry_point_raw
  let max_level ← read_le 4
  let node_count ← read_le 8
  let nodes ← read_nodes_v1 node_count
  return { entry_point := entry_point, max_level := max_level, nodes := nodes }

/-- The ordinal table of `load_graph_block_v2`, after the last id pushed. -/
def load_unique_ids : Option ℕ → List ℕ → Except LaurusError (List ℕ)
  | _, [] => .ok []
  | none, doc_id :: records => do
    let ids ← load_unique_ids (some doc_id) records
    return doc_id :: ids
  | some last, doc_id :: records =>
    if doc_id = last then load_unique_ids (some last) records
    else if doc_id < last then
      .error (LaurusError.index
        s!"HNSW segment corrupt: record doc ids not sorted ({doc_id} follows {last})")
    else do
      let ids ← load_unique_ids (some doc_id) records
      return doc_id :: ids

/-- `doc_of`. -/
def doc_of (ids : List ℕ) (ord : ℕ) : GraphRead ℕ :=
  match ids[ord]? with
  | some doc_id => return doc_id
  | none => throw (Fault.error (LaurusError.index
      s!"HNSW v2 graph corrupt: ordinal {ord} out of range (node count {ids.length})"))

/-- The entry point of a v2 block. -/
def ordinal_entry (ids : List ℕ) (entry_point_raw : ℕ) : GraphRead (Option ℕ) :=
  if entry_point_raw = U32_MAX then return none
  else do
    let doc_id ← doc_of ids entry_point_raw
    return some doc_id

/-- A neighbour of a v2 block. -/
def read_ordinal (ids : List ℕ) : GraphRead ℕ := do
  let ord ← read_le 4
  doc_of ids ord

/-- The nodes of a v2 block, one for each id of the table. -/
def read_nodes_v2 (ids : List ℕ) (node_count : ℕ) : GraphRead (List (ℕ × Layers)) := do
  let input ← get
  let graph_remaining := input.remaining
  bounded node_count 4 graph_remaining "hnsw node_count"
  each (fun doc_id => do
    let layers ← read_layers (read_ordinal ids) 4 graph_remaining
    return (doc_id, layers)) ids

/-- `load_graph_block_v2`, over the doc ids of the records. -/
def load_graph_block_v2 (vectors : List ℕ) : GraphRead ParsedGraphBlock := do
  let ids ← GraphRead.liftE (load_unique_ids none vectors)
  let entry_point_raw ← read_le 4
  let entry_point ← ordinal_entry ids entry_point_raw
  let max_level ← read_le 4
  let node_count ← read_le 4
  if node_count ≠ ids.length then
    throw (Fault.error (LaurusError.index
      (s!"HNSW v2 graph corrupt: node_count {node_count} does not match the segment's " ++
        s!"{ids.length} unique record doc ids")))
  let nodes ← read_nodes_v2 ids node_count
  return { entry_point := entry_point, max_level := max_level, nodes := nodes }

/-- `HnswGraph::new`, of what a loader has inserted into its map. -/
def ParsedGraphBlock.graph (block : ParsedGraphBlock) : HnswGraph where
  entry_point := block.entry_point
  max_level := block.max_level
  nodes := block.nodes.foldl (fun nodes node => NodeMap.insert nodes node.1 node.2) []

/-- `VERSION_ORDINAL_GRAPH`. -/
def VERSION_ORDINAL_GRAPH : ℕ := 2

/-- The block's loader, by the header's version. -/
def load_graph_block (version : ℕ) (vectors : List ℕ) : GraphRead ParsedGraphBlock :=
  if VERSION_ORDINAL_GRAPH ≤ version then load_graph_block_v2 vectors else load_graph_block_v1

/-- The graph section of `load`, from the `has_graph` byte on. -/
def load_graph (version : ℕ) (vectors : List ℕ) : GraphRead (Option HnswGraph) := do
  let input ← get
  if input.remaining = 0 then return none
  let has_graph ← read_exact 1
  if has_graph = [1] then
    let block ← load_graph_block version vectors
    return some block.graph
  else return none

/-! ## Appending and finalizing -/

/-- `ConcurrentHnswGraph::new_entry`. -/
def new_entry (level : ℕ) : Layers := List.replicate (level + 1) []

/-- `ConcurrentHnswGraph::add_nodes`: known ids are kept. -/
def add_nodes (nodes : NodeMap) (nodes_with_levels : List (ℕ × ℕ)) : NodeMap :=
  nodes_with_levels.foldl (fun nodes node =>
    if nodes.any (fun known => known.1 = node.1) then nodes
    else NodeMap.insert nodes node.1 (new_entry node.2)) nodes

/-- One neighbour list given another content: `set_neighbors`,
`add_neighbor_with_pruning`, and the edges `repair_layer0_connectivity`
adds. A list that is not there is left alone. -/
structure ListWrite where
  doc_id : ℕ
  level : ℕ
  neighbors : List ℕ
  deriving DecidableEq, Repr

/-- The nodes after a write. -/
def ListWrite.apply (nodes : NodeMap) (write : ListWrite) : NodeMap :=
  nodes.map fun node =>
    if node.1 = write.doc_id then (node.1, node.2.set write.level write.neighbors) else node

/-- What `build_hnsw_graph` leaves in the writer. -/
structure BuiltGraph where
  graph : HnswGraph
  /-- The lists by level, `max_level + 1` of them. -/
  levels : List (List ℕ)
  deriving DecidableEq, Repr

/-- `vec_layers.len() - 1`, for one node of the final conversion. -/
def final_level (node : ℕ × Layers) : Except Fault (ℕ × ℕ) :=
  if node.2.length = 0 then .error (Fault.panicked "vec_layers.len() - 1")
  else .ok (node.1, node.2.length - 1)

/-- The conversion at the end of `build_hnsw_graph`. -/
def final_conversion (entry_point : Option ℕ) (max_level : ℕ) (nodes : NodeMap)
    (repairs : List ListWrite) : Except Fault BuiltGraph := do
  let final_levels ← nodes.mapM final_level
  return {
    graph := {
      entry_point := entry_point
      max_level := max_level
      nodes := repairs.foldl ListWrite.apply nodes }
    levels := (List.range (max_level + 1)).map fun level =>
      (final_levels.filter fun node => node.2 = level).map Prod.fst }

/-- The level `select_layer` stops at. -/
def LAYER_CAP : ℕ := 16

/-- The highest level assigned. -/
def highest_level (nodes_with_levels : List (ℕ × ℕ)) : ℕ :=
  nodes_with_levels.foldr (fun node top => max node.2 top) 0

/-- The entry point a full build and a promotion choose. -/
def top_node (nodes_with_levels : List (ℕ × ℕ)) (level : ℕ) : Option ℕ :=
  (nodes_with_levels.find? fun node => node.2 = level).map Prod.fst

/-- The full build: every vector is a new node. -/
def full_build (select_layer : ℕ → ℕ) (vectors : List ℕ) (writes repairs : List ListWrite) :
    Except Fault BuiltGraph :=
  let new_node_levels := (vectors.insertionSort (· ≤ ·)).map fun id => (id, select_layer id)
  let max_level := highest_level new_node_levels
  let nodes := new_node_levels.foldl
    (fun nodes node => NodeMap.insert nodes node.1 (new_entry node.2)) []
  final_conversion (top_node new_node_levels max_level) max_level
    (writes.foldl ListWrite.apply nodes) repairs

/-- The incremental build: the vectors the graph does not have are new. -/
def append_build (select_layer : ℕ → ℕ) (vectors : List ℕ) (existing : HnswGraph)
    (writes repairs : List ListWrite) : Except Fault BuiltGraph :=
  let new_ids := (vectors.filter fun id => !existing.contains_node id).insertionSort (· ≤ ·)
  let new_node_levels := new_ids.map fun id => (id, select_layer id)
  let new_max_level := highest_level new_node_levels
  let total_max_level := max existing.max_level new_max_level
  let promoted := if existing.max_level < new_max_level
    then top_node new_node_levels total_max_level else none
  final_conversion (promoted.or existing.entry_point) total_max_level
    (writes.foldl ListWrite.apply (add_nodes existing.nodes new_node_levels)) repairs

/-- `build_hnsw_graph`, over the doc ids of `vectors`: levels are assigned by
`select_layer`, and `writes` and `repairs` are the lists rewritten. `none`
without a vector, when nothing is done. -/
def build_hnsw_graph (ef_construction : ℕ) (select_layer : ℕ → ℕ) (vectors : List ℕ)
    (graph : Option HnswGraph) (writes repairs : List ListWrite) :
    Except Fault (Option BuiltGraph) :=
  if vectors = [] then .ok none
  else match graph.filter fun g => ef_construction ≤ g.node_count with
    | some existing => (append_build select_layer vectors existing writes repairs).map some
    | none => (full_build select_layer vectors writes repairs).map some

end Laurus
