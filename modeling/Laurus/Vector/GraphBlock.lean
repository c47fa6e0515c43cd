import Laurus.Common.ParCollect
import Laurus.Vector.Helpers.HnswGraph

/-!
# The HNSW graph block — round trip and refusal

The block written for a graph over the segment's records is the layout of
its nodes in rank order (`write_graph_block_eq`), and the loader takes
exactly the layouts; what is left of the round trip is whether the
numbers fit their 32-bit words. Of an arbitrary block, what a load
returns is what the block spells, so whether the graph can be appended to
is a condition on the block's bytes (`CleanBlock`).
-/

namespace Laurus

open Comp StorageInput

/-! ## The node map -/

variable {nodes : NodeMap} {node : ℕ × Layers} {block : ParsedGraphBlock} {version : ℕ}
  {records : List ℕ} {before bytes : Bytes} {graph : HnswGraph} {select_layer : ℕ → ℕ}

theorem mem_insert {doc_id : ℕ} {layers : Layers} :
    node ∈ nodes.insert doc_id layers ↔
      (node ∈ nodes ∧ node.1 ≠ doc_id) ∨ node = (doc_id, layers) := by
  rw [NodeMap.insert, List.mem_append, List.mem_filter, List.mem_singleton, decide_eq_true_eq]

/-- The nodes of the map a loader builds. -/
def inserted (nodes : NodeMap) (items : List (ℕ × Layers)) : NodeMap :=
  items.foldl (fun nodes node => NodeMap.insert nodes node.1 node.2) nodes

/-- **Of the entries of one id, the map keeps the last.** -/
theorem mem_inserted {items : List (ℕ × Layers)} :
    node ∈ inserted nodes items ↔
      (node ∈ nodes ∧ ∀ item ∈ items, item.1 ≠ node.1) ∨
        ∃ before after, items = before ++ node :: after ∧ ∀ later ∈ after, later.1 ≠ node.1 := by
  induction items generalizing nodes with
  | nil => simp [inserted]
  | cons item items ih =>
      rw [inserted, List.foldl_cons, ← inserted, ih, mem_insert, List.forall_mem_cons]
      constructor
      · rintro (⟨⟨hmem, hne⟩ | rfl, hlater⟩ | ⟨before, after, rfl, hlater⟩)
        · grind
        · exact Or.inr ⟨[], items, rfl, hlater⟩
        grind
      · rintro (⟨hmem, hne, hlater⟩ | ⟨before, after, heq, hlater⟩)
        · grind
        · rcases before with _ | ⟨first, before⟩
          · grind
          grind

theorem inserted_of_nodup {items : List (ℕ × Layers)}
    (h : ((nodes ++ items).map Prod.fst).Nodup) : inserted nodes items = nodes ++ items := by
  induction items generalizing nodes with
  | nil => rw [List.append_nil]; rfl
  | cons item items ih =>
      have hkeep : NodeMap.insert nodes item.1 item.2 = nodes ++ [item] := by
        rw [NodeMap.insert, List.filter_eq_self.2]
        grind
      rw [inserted, List.foldl_cons, ← inserted, hkeep, ih (by rwa [List.append_assoc]),
        List.append_assoc]
      rfl

theorem graph_nodes (block : ParsedGraphBlock) :
    block.graph.nodes = inserted [] block.nodes := rfl

theorem mem_of_mem_graph
    (h : node ∈ block.graph.nodes) : node ∈ block.nodes := by
  rw [graph_nodes, mem_inserted] at h
  grind

/-! ## What is written -/

namespace HnswGraph

/-- A graph over the segment's records: a node for each record id, and
nothing but record ids in it. -/
structure Over (records : List ℕ) (graph : HnswGraph) : Prop where
  nodup : (graph.nodes.map Prod.fst).Nodup
  node_ids : ∀ id, id ∈ graph.nodes.map Prod.fst ↔ id ∈ records
  entry_point : ∀ id, graph.entry_point = some id → id ∈ records
  neighbors : ∀ node ∈ graph.nodes, ∀ neighbors ∈ node.2, ∀ id ∈ neighbors, id ∈ records

/-- The numbers the block has 32 bits for. -/
structure Fits32 (graph : HnswGraph) : Prop where
  max_level : graph.max_level < 2 ^ 32
  layers : ∀ node ∈ graph.nodes, node.2.length < 2 ^ 32
  neighbors : ∀ node ∈ graph.nodes, ∀ neighbors ∈ node.2, neighbors.length < 2 ^ 32

/-- The same entry point, maximum level and per-level neighbour lists. -/
structure Same (a b : HnswGraph) : Prop where
  entry_point : a.entry_point = b.entry_point
  max_level : a.max_level = b.max_level
  layers : ∀ id, a.get_node_layers id = b.get_node_layers id

/-- What `write` lays out for a graph. -/
def layout (graph : HnswGraph) : ParsedGraphBlock where
  entry_point := graph.entry_point
  max_level := graph.max_level
  nodes := graph.sorted_nodes

variable {records : List ℕ} {graph : HnswGraph}

theorem mem_sorted_nodes {node : ℕ × Layers} : node ∈ graph.sorted_nodes ↔ node ∈ graph.nodes :=
  List.mem_insertionSort _

/-- **Node order is rank order.** -/
theorem Over.sorted_ids (h : graph.Over records) (hsorted : records.Pairwise (· ≤ ·)) :
    graph.sorted_nodes.map Prod.fst = unique_ids none records := by
  obtain ⟨hids, hmem⟩ := unique_ids_spec hsorted
  have hmap : graph.sorted_nodes.map Prod.fst =
      (graph.nodes.map Prod.fst).insertionSort (· ≤ ·) :=
    List.map_insertionSort _ _ _ _ fun a _ b _ => Iff.rfl
  rw [hmap]
  have hle : ((graph.nodes.map Prod.fst).insertionSort (· ≤ ·)).Pairwise (· ≤ ·) :=
    List.pairwise_insertionSort _ _
  have hnodup : ((graph.nodes.map Prod.fst).insertionSort (· ≤ ·)).Nodup :=
    (List.perm_insertionSort _ _).nodup_iff.2 h.nodup
  have hlt : ((graph.nodes.map Prod.fst).insertionSort (· ≤ ·)).Pairwise (· < ·) :=
    hle.imp₂ (fun _ _ hab hne => Nat.lt_of_le_of_ne hab hne) hnodup
  refine hlt.eq_of_mem_iff hids fun id => ?_
  rw [List.mem_insertionSort, h.node_ids, hmem]

end HnswGraph

section Written

variable {ids : List ℕ}

theorem ord_of_doc_ok {doc_id : ℕ} (h : doc_id ∈ ids) :
    ord_of_doc ids doc_id = .ok (ids.idxOf doc_id) := if_pos h

theorem write_neighbors_ok {neighbors : List ℕ} (h : ∀ id ∈ neighbors, id ∈ ids) :
    write_neighbors ids neighbors = .ok (counted (ordinal_le ids) neighbors) := by
  rw [write_neighbors, mapM_eq_ok_map fun id hid => ord_of_doc_ok (h id hid)]
  show Except.ok _ = Except.ok _
  rw [List.flatMap_map]
  rfl

theorem write_nodes_ok {nodes : List (ℕ × Layers)} {before : List ℕ}
    (hids : ids = before ++ nodes.map Prod.fst)
    (hmem : ∀ node ∈ nodes, ∀ neighbors ∈ node.2, ∀ id ∈ neighbors, id ∈ ids) :
    write_nodes ids before.length nodes = .ok (nodes.flatMap (node_v2 ids)) := by
  induction nodes generalizing before with
  | nil => rfl
  | cons node nodes ih =>
      obtain ⟨doc_id, layers⟩ := node
      rw [List.forall_mem_cons] at hmem
      have hplace : ids[before.length]? = some doc_id := by grind
      have hsplit : ids = (before ++ [doc_id]) ++ nodes.map Prod.fst := by grind
      have hrest := ih hsplit hmem.2
      rw [List.length_append, List.length_singleton] at hrest
      rw [write_nodes, if_neg (not_not.2 hplace),
        mapM_eq_ok_map fun neighbors hneighbors => write_neighbors_ok (hmem.1 neighbors hneighbors),
        hrest]
      rfl

/-- **What is written** for a graph over the records is its layout. -/
theorem write_graph_block_eq {records : List ℕ} {graph : HnswGraph} (h : graph.Over records)
    (hsorted : records.Pairwise (· ≤ ·)) (hfew : (unique_ids none records).length < U32_MAX) :
    write_graph_block records (some graph) =
      .ok (1 :: graph.layout.spell_v2 (unique_ids none records)) := by
  obtain ⟨-, hmem⟩ := unique_ids_spec hsorted
  have hids := h.sorted_ids hsorted
  have hcount : graph.node_count = (unique_ids none records).length := by
    rw [← hids, List.length_map, HnswGraph.sorted_nodes, List.length_insertionSort]
    rfl
  have hnodes : write_nodes (unique_ids none records) 0 graph.sorted_nodes =
      .ok (graph.sorted_nodes.flatMap (node_v2 (unique_ids none records))) := by
    refine @write_nodes_ok _ _ [] (by rw [List.nil_append, hids]) ?_
    intro node hnode neighbors hneighbors id hid
    grind [HnswGraph.Over.neighbors, HnswGraph.mem_sorted_nodes]
  have hentry : entry_ord_of (unique_ids none records) graph.entry_point =
      .ok (entry_ord (unique_ids none records) graph.entry_point) := by
    rcases he : graph.entry_point with _ | id
    · rfl
    · exact ord_of_doc_ok ((hmem id).2 (h.entry_point id he))
  have hlen : graph.layout.nodes.length = (unique_ids none records).length := by
    rw [← hids, List.length_map]
    rfl
  unfold write_graph_block
  dsimp only
  rw [if_neg (by omega), if_neg (not_not.2 hcount), hentry, hnodes]
  rw [ParsedGraphBlock.spell_v2, hlen]
  rfl

end Written

/-! ## What is loaded -/

/-- The bytes begin with the layout of `block`, in the version's encoding. -/
def Spells (version : ℕ) (records : List ℕ) (bytes : Bytes) (block : ParsedGraphBlock) : Prop :=
  if VERSION_ORDINAL_GRAPH ≤ version then
    records.Pairwise (· ≤ ·) ∧ block.Valid_v2 (unique_ids none records) ∧
      ∃ t, bytes = block.spell_v2 (unique_ids none records) ++ t
  else block.Valid_v1 ∧ ∃ t, bytes = block.spell_v1 ++ t

theorem exists_ok_iff {room : ℕ} {p : GraphRead ParsedGraphBlock} {ok : ParsedGraphBlock → Prop}
    {spell : ParsedGraphBlock → Bytes} (h : Recognises room p fun b bs => ok b ∧ bs = spell b)
    {input : StorageInput} (hroom : input.rest.length ≤ room) :
    (∃ s, p input = .ok (block, s)) ↔ ok block ∧ ∃ t, input.rest = spell block ++ t := by
  simp only [h.eq_ok_iff (s := input) hroom]
  constructor
  · rintro ⟨_, _, t, hrest, rfl, hok, rfl⟩
    exact ⟨hok, t, hrest⟩
  · rintro ⟨hok, t, hrest⟩
    exact ⟨_, _, t, hrest, rfl, hok, rfl⟩

/-- **A loader accepts the bytes that begin with a layout, and no others.** -/
theorem load_graph_block_iff {input : StorageInput} :
    (∃ s, load_graph_block version records input = .ok (block, s)) ↔
      Spells version records input.rest block := by
  unfold load_graph_block Spells
  split
  · rcases hids : load_unique_ids none records with e | ids
    · constructor
      · rintro ⟨s, hrun⟩
        unfold load_graph_block_v2 at hrun
        rw [hids] at hrun
        cases hrun
      · rintro ⟨hsorted, -⟩
        rw [load_unique_ids_eq_ok.2 ⟨hsorted, rfl⟩] at hids
        cases hids
    · obtain ⟨hsorted, rfl⟩ := load_unique_ids_eq_ok.1 hids
      rw [exists_ok_iff (recognises_v2 hids (unique_ids_nodup hsorted)) (Nat.le_refl _)]
      grind
  · exact exists_ok_iff recognises_v1 (Nat.le_refl _)

/-- The segment file at its graph section: `before`, the `has_graph` byte,
and the bytes in place of the block. -/
def at_graph (before bytes : Bytes) : StorageInput where
  file := before ++ 1 :: bytes
  position := before.length

theorem load_graph_eq (version : ℕ) (records : List ℕ) (before bytes : Bytes) :
    ∃ input : StorageInput, input.rest = bytes ∧
      load_graph version records (at_graph before bytes) =
        (load_graph_block version records input).map fun r => (some r.1.graph, r.2) := by
  have hrest : (at_graph before bytes).rest = [1] ++ bytes := by
    rw [rest, at_graph, List.drop_left]
    rfl
  have hmore : ¬ (at_graph before bytes).remaining = 0 := by
    rw [← length_rest, hrest, List.length_append, List.length_singleton]
    omega
  have hbyte : read_exact 1 (at_graph before bytes) =
      .ok ([1], (at_graph before bytes).advance [1]) :=
    (@recognises_exact 1 1).2 [1] [1] ⟨rfl, rfl⟩ (Nat.le_refl _) _ bytes hrest
  have hafter : ((at_graph before bytes).advance [1]).rest = bytes :=
    @Input.rest_advance StorageInput _ _ (at_graph before bytes) [1] bytes hrest
  refine ⟨(at_graph before bytes).advance [1], hafter, ?_⟩
  unfold load_graph
  rw [bind_apply, get_apply]
  dsimp only
  rw [if_neg hmore, bind_apply, hbyte]
  dsimp only
  rw [if_pos rfl, bind_apply]
  rcases load_graph_block version records ((at_graph before bytes).advance [1]) with e | r
  · rfl
  · rfl

/-- **What a load returns**: what the bytes spell. -/
theorem load_graph_iff :
    (∃ s, load_graph version records (at_graph before bytes) = .ok (some graph, s)) ↔
      ∃ block, Spells version records bytes block ∧ graph = block.graph := by
  obtain ⟨input, hrest, hload⟩ := load_graph_eq version records before bytes
  rw [hload, ← hrest]
  constructor
  · rintro ⟨s, hs⟩
    rcases hrun : load_graph_block version records input with e | r
    · rw [hrun] at hs
      cases hs
    · rw [hrun] at hs
      cases hs
      exact ⟨r.1, load_graph_block_iff.1 ⟨r.2, hrun⟩, rfl⟩
  · rintro ⟨block, hspells, rfl⟩
    obtain ⟨s, hrun⟩ := load_graph_block_iff.2 hspells
    exact ⟨s, by rw [hrun]; rfl⟩

/-! ## The round trip -/

theorem lookup_eq_some_of_nodup (h : (nodes.map Prod.fst).Nodup) {id : ℕ}
    {layers : Layers} : nodes.lookup id = some layers ↔ (id, layers) ∈ nodes := by
  grind [List.lookup_eq_some_iff, List.append_of_mem]

namespace HnswGraph

variable {records : List ℕ} {graph : HnswGraph}

theorem Over.layout_valid (h : graph.Over records) (hsorted : records.Pairwise (· ≤ ·))
    (hfits : graph.Fits32) (hfew : (unique_ids none records).length < U32_MAX) :
    graph.layout.Valid_v2 (unique_ids none records) := by
  obtain ⟨-, hmem⟩ := unique_ids_spec hsorted
  have hmax : U32_MAX + 1 = 2 ^ 32 := by decide
  refine ⟨fun id hid => (hmem id).2 (h.entry_point id hid), hfits.max_level, by omega,
    h.sorted_ids hsorted, fun node hnode => ?_⟩
  have hnode' := mem_sorted_nodes.1 hnode
  refine ⟨hfits.layers node hnode', fun neighbors hneighbors =>
    ⟨hfits.neighbors node hnode' neighbors hneighbors, fun id hid => ?_⟩⟩
  grind [neighbors]

theorem Over.layout_same (h : graph.Over records) (hsorted : records.Pairwise (· ≤ ·)) :
    graph.layout.graph.Same graph := by
  have hids := h.sorted_ids hsorted
  have hnodup : (graph.sorted_nodes.map Prod.fst).Nodup := by
    rw [hids]
    exact unique_ids_nodup hsorted
  have hnodes : graph.layout.graph.nodes = graph.sorted_nodes := by
    rw [graph_nodes, inserted_of_nodup hnodup]
    rfl
  refine ⟨rfl, rfl, fun id => Option.ext fun layers => ?_⟩
  grind [get_node_layers, lookup_eq_some_of_nodup, nodup, mem_sorted_nodes]

theorem Over.fits_of_same (h : graph.Over records) {ids : List ℕ} {block : ParsedGraphBlock}
    (hvalid : block.Valid_v2 ids) (hsame : block.graph.Same graph) : graph.Fits32 := by
  have hloaded : ∀ node ∈ graph.nodes, Spelled (· ∈ ids) node.2 := by
    rintro ⟨id, layers⟩ hnode
    have hget := (lookup_eq_some_of_nodup h.nodup).2 hnode
    rw [← get_node_layers, ← hsame.layers, get_node_layers, List.lookup_eq_some_iff] at hget
    obtain ⟨l, r, heq, -⟩ := hget
    exact hvalid.nodes _ (mem_of_mem_graph (heq ▸ List.mem_append_right _ List.mem_cons_self))
  refine ⟨?_, fun node hnode => (hloaded node hnode).1, fun node hnode neighbors hneighbors =>
    ((hloaded node hnode).2 neighbors hneighbors).1⟩
  rw [← hsame.max_level]
  exact hvalid.max_level

end HnswGraph

/-! ## Appending and finalizing -/

/-- Every node has a level. -/
def Levelled (nodes : NodeMap) : Prop := ∀ node ∈ nodes, node.2 ≠ []

theorem Levelled.insert_new (h : Levelled nodes) (doc_id level : ℕ) :
    Levelled (nodes.insert doc_id (new_entry level)) := by
  intro node hnode
  rcases mem_insert.1 hnode with ⟨hmem, -⟩ | rfl
  · exact h node hmem
  · exact List.cons_ne_nil _ _

theorem Levelled.add_nodes (h : Levelled nodes) (added : List (ℕ × ℕ)) :
    Levelled (add_nodes nodes added) := by
  refine List.foldlRecOn added _ h fun nodes hnodes node _ => ?_
  grind [insert_new]

theorem Levelled.writes (h : Levelled nodes) (writes : List ListWrite) :
    Levelled (writes.foldl ListWrite.apply nodes) := by
  refine List.foldlRecOn writes _ h fun nodes hnodes write _ => ?_
  intro node hnode
  obtain ⟨old, hold, rfl⟩ := List.mem_map.1 hnode
  have hne := hnodes old hold
  grind [List.length_set]

/-- **No level underflows** where every node has one. -/
theorem Levelled.final_conversion (h : Levelled nodes) (entry_point : Option ℕ)
    (max_level : ℕ) (repairs : List ListWrite) :
    ∃ built, final_conversion entry_point max_level nodes repairs = .ok built ∧
      built.levels.length = max_level + 1 := by
  have hlevels : nodes.mapM final_level = .ok (nodes.map fun node => (node.1, node.2.length - 1)) :=
    mapM_eq_ok_map fun node hnode => if_neg fun hzero =>
      h node hnode (List.length_eq_zero_iff.1 hzero)
  refine ⟨_, by rw [Laurus.final_conversion, hlevels]; rfl, ?_⟩
  rw [List.length_map, List.length_range]

theorem highest_level_le {top : ℕ} {nodes : List (ℕ × ℕ)} (h : ∀ node ∈ nodes, node.2 ≤ top) :
    highest_level nodes ≤ top := by
  induction nodes with
  | nil => exact Nat.zero_le _
  | cons node nodes ih =>
      rw [List.forall_mem_cons] at h
      exact Nat.max_le.2 ⟨h.1, ih h.2⟩

theorem highest_level_assigned (h : ∀ id, select_layer id ≤ LAYER_CAP)
    (ids : List ℕ) : highest_level (ids.map fun id => (id, select_layer id)) ≤ LAYER_CAP := by
  refine highest_level_le fun node hnode => ?_
  grind

theorem full_build_ok (hcap : ∀ id, select_layer id ≤ LAYER_CAP)
    (vectors : List ℕ) (writes repairs : List ListWrite) :
    ∃ built, full_build select_layer vectors writes repairs = .ok built ∧
      built.levels.length ≤ LAYER_CAP + 1 := by
  have htop := highest_level_assigned hcap (vectors.insertionSort (· ≤ ·))
  have hnone : Levelled [] := fun node hnode => absurd hnode List.not_mem_nil
  have hnodes : Levelled (((vectors.insertionSort (· ≤ ·)).map
      fun id => (id, select_layer id)).foldl
        (fun nodes node => NodeMap.insert nodes node.1 (new_entry node.2)) []) :=
    List.foldlRecOn _ _ hnone fun nodes hnodes node _ => hnodes.insert_new node.1 node.2
  obtain ⟨built, hbuilt, hlen⟩ := (hnodes.writes writes).final_conversion
    (top_node _ _) (highest_level _) repairs
  exact ⟨built, hbuilt, by omega⟩

theorem append_build_ok (h : Levelled graph.nodes)
    (hcap : ∀ id, select_layer id ≤ LAYER_CAP) (vectors : List ℕ)
    (writes repairs : List ListWrite) :
    ∃ built, append_build select_layer vectors graph writes repairs = .ok built ∧
      built.levels.length ≤ max graph.max_level LAYER_CAP + 1 := by
  have htop := highest_level_assigned hcap
    ((vectors.filter fun id => !graph.contains_node id).insertionSort (· ≤ ·))
  obtain ⟨built, hbuilt, hlen⟩ := ((h.add_nodes _).writes writes).final_conversion
    (Option.or _ graph.entry_point) (max graph.max_level (highest_level _)) repairs
  exact ⟨built, hbuilt, by omega⟩

/-- **A graph whose nodes have levels can be appended to and finalized**,
and the level lists are as many as its maximum level or a new node's
asks for. -/
theorem build_ok (h : Levelled graph.nodes)
    (hcap : ∀ id, select_layer id ≤ LAYER_CAP) (ef_construction : ℕ) (vectors : List ℕ)
    (writes repairs : List ListWrite) :
    ∃ built, build_hnsw_graph ef_construction select_layer vectors (some graph) writes repairs =
        .ok built ∧
      ∀ b, built = some b → b.levels.length ≤ max graph.max_level LAYER_CAP + 1 := by
  unfold build_hnsw_graph
  split
  · simp
  · split
    · rename_i existing hkept
      obtain ⟨⟨⟩, -⟩ := Option.filter_eq_some_iff.1 hkept
      obtain ⟨built, hbuilt, hlen⟩ := append_build_ok h hcap vectors writes repairs
      refine ⟨some built, by rw [hbuilt]; rfl, ?_⟩
      rintro _ ⟨⟩
      exact hlen
    · obtain ⟨built, hbuilt, hlen⟩ := full_build_ok hcap vectors writes repairs
      refine ⟨some built, by rw [hbuilt]; rfl, ?_⟩
      rintro _ ⟨⟩
      omega

/-- The level lists of an append are at least as many as the loaded maximum
level asks for. -/
theorem length_levels_append (h : Levelled graph.nodes) (doc_id : ℕ) :
    ∃ built, build_hnsw_graph 0 (fun _ => 0) [doc_id] (some graph) [] [] = .ok (some built) ∧
      graph.max_level + 1 ≤ built.levels.length := by
  obtain ⟨built, hbuilt, hlen⟩ := ((h.add_nodes _).writes []).final_conversion
    (Option.or _ graph.entry_point) (max graph.max_level (highest_level _)) []
  refine ⟨built, ?_, by omega⟩
  show (append_build (fun _ => 0) [doc_id] graph [] []).map some = _
  rw [append_build, hbuilt]
  rfl

/-! ## The graph block as a whole -/

/-- **What is asked of a loaded graph**: a level for every node, nothing but
record ids in it, and that whatever vectors the writer then holds,
finalizing neither underflows nor makes more level lists than new nodes
ask for or the file has bytes. -/
structure SafeGraph (records : List ℕ) (file_size : ℕ) (graph : HnswGraph) : Prop where
  levels : Levelled graph.nodes
  entry_point : ∀ id, graph.entry_point = some id → id ∈ records
  neighbors : ∀ node ∈ graph.nodes, ∀ neighbors ∈ node.2, ∀ id ∈ neighbors, id ∈ records
  finalizes : ∀ (ef_construction : ℕ) (select_layer : ℕ → ℕ) (vectors : List ℕ)
    (writes repairs : List ListWrite), (∀ id, select_layer id ≤ LAYER_CAP) →
    ∃ built, build_hnsw_graph ef_construction select_layer vectors (some graph) writes repairs =
        .ok built ∧
      ∀ b, built = some b → b.levels.length ≤ max (LAYER_CAP + 1) file_size

/-- **What is asked of a load**: it reserves no more than the file could hold
and does not panic, and what it returns is safe. -/
structure SafeLoad (version : ℕ) (records : List ℕ) (input : StorageInput) : Prop where
  refuses : ∀ e, load_graph version records input = .error e → ¬ e.IsCrash
  returns : ∀ graph s, load_graph version records input = .ok (some graph, s) →
    SafeGraph records input.file.length graph

/-- An entry that the map keeps: the last one of its id. -/
def ParsedGraphBlock.Keeps (block : ParsedGraphBlock) (node : ℕ × Layers) : Prop :=
  ∃ before after, block.nodes = before ++ node :: after ∧ ∀ later ∈ after, later.1 ≠ node.1

/-- The block names no layer count of zero, no maximum level out of reach,
and, where ids are written out, no id without a record. -/
structure ParsedGraphBlock.Clean (version : ℕ) (records : List ℕ) (file_size : ℕ)
    (block : ParsedGraphBlock) : Prop where
  levels : ∀ node, block.Keeps node → node.2 ≠ []
  max_level : block.max_level < max (LAYER_CAP + 1) file_size
  entry_point : version < VERSION_ORDINAL_GRAPH → ∀ id, block.entry_point = some id → id ∈ records
  neighbors : version < VERSION_ORDINAL_GRAPH → ∀ node, block.Keeps node →
    ∀ neighbors ∈ node.2, ∀ id ∈ neighbors, id ∈ records

/-- **The condition on the bytes**: what they spell, if anything, is clean. -/
def CleanBlock (version : ℕ) (records : List ℕ) (file_size : ℕ) (bytes : Bytes) : Prop :=
  ∀ block, Spells version records bytes block → block.Clean version records file_size

theorem keeps_iff :
    block.Keeps node ↔ node ∈ block.graph.nodes := by
  rw [graph_nodes, mem_inserted]
  constructor
  · exact Or.inr
  · rintro (⟨h, -⟩ | h)
    · exact absurd h List.not_mem_nil
    · exact h

theorem v2_record_ids
    (h : Spells version records bytes block) (hversion : VERSION_ORDINAL_GRAPH ≤ version) :
    (∀ id, block.entry_point = some id → id ∈ records) ∧
      ∀ node ∈ block.graph.nodes, ∀ neighbors ∈ node.2, ∀ id ∈ neighbors, id ∈ records := by
  rw [Spells, if_pos hversion] at h
  obtain ⟨hsorted, hvalid, -⟩ := h
  obtain ⟨-, hmem⟩ := unique_ids_spec hsorted
  refine ⟨fun id hid => (hmem id).1 (hvalid.entry_point id hid), ?_⟩
  intro node hnode neighbors hneighbors id hid
  have hspelled := hvalid.nodes node (mem_of_mem_graph hnode)
  exact (hmem id).1 ((hspelled.2 neighbors hneighbors).2 id hid)

/-- **What a block spells is safe when it is clean, and only then.** -/
theorem safe_graph_iff {file_size : ℕ} (h : Spells version records bytes block) :
    SafeGraph records file_size block.graph ↔ block.Clean version records file_size := by
  constructor
  · intro hsafe
    refine ⟨fun node hnode => hsafe.levels node (keeps_iff.1 hnode), ?_, fun _ => hsafe.entry_point,
      fun _ node hnode => hsafe.neighbors node (keeps_iff.1 hnode)⟩
    obtain ⟨built, hbuilt, hlen⟩ := length_levels_append hsafe.levels 0
    obtain ⟨built', hbuilt', hbound⟩ := hsafe.finalizes 0 (fun _ => 0) [0] [] []
      fun _ => Nat.zero_le _
    rw [hbuilt] at hbuilt'
    have hle := hbound built (Except.ok.inj hbuilt').symm
    have hmax : block.graph.max_level = block.max_level := rfl
    omega
  · intro hclean
    have hlevels : Levelled block.graph.nodes := fun node hnode =>
      hclean.levels node (keeps_iff.2 hnode)
    have hids : (∀ id, block.graph.entry_point = some id → id ∈ records) ∧
        ∀ node ∈ block.graph.nodes, ∀ neighbors ∈ node.2, ∀ id ∈ neighbors, id ∈ records := by
      rcases Nat.lt_or_ge version VERSION_ORDINAL_GRAPH with hlt | hge
      · exact ⟨hclean.entry_point hlt, fun node hnode =>
          hclean.neighbors hlt node (keeps_iff.2 hnode)⟩
      · exact v2_record_ids h hge
    refine ⟨hlevels, hids.1, hids.2,
      fun ef_construction select_layer vectors writes repairs hcap => ?_⟩
    obtain ⟨built, hbuilt, hlen⟩ := build_ok hlevels hcap ef_construction vectors writes repairs
    refine ⟨built, hbuilt, fun b hb => ?_⟩
    have hle := hlen b hb
    have hmax := hclean.max_level
    have hgraph : block.graph.max_level = block.max_level := rfl
    omega

/-- The read-back of what is written. -/
def ReadsBack (version : ℕ) (records : List ℕ) (graph : HnswGraph) (before footer : Bytes) : Prop :=
  ∀ block, write_graph_block records (some graph) = .ok (1 :: block) →
    ∃ loaded s, load_graph version records (at_graph before (block ++ footer)) =
      .ok (some loaded, s) ∧ loaded.Same graph

/-- **The round trip** is exact when the numbers fit their words, or nothing
is written. -/
theorem reads_back_iff {footer : Bytes}
    (hversion : VERSION_ORDINAL_GRAPH ≤ version) (hsorted : records.Pairwise (· ≤ ·))
    (h : graph.Over records) :
    ReadsBack version records graph before footer ↔
      U32_MAX ≤ (unique_ids none records).length ∨ graph.Fits32 := by
  rcases Nat.lt_or_ge (unique_ids none records).length U32_MAX with hfew | hmany
  · have hwrite := write_graph_block_eq h hsorted hfew
    constructor
    · intro hback
      obtain ⟨loaded, s, hload, hsame⟩ := hback _ hwrite
      obtain ⟨block, hspells, rfl⟩ := load_graph_iff.1 ⟨s, hload⟩
      rw [Spells, if_pos hversion] at hspells
      exact Or.inr (h.fits_of_same hspells.2.1 hsame)
    · rintro (hmany | hfits)
      · omega
      · intro block hblock
        rw [hwrite, Except.ok.injEq, List.cons.injEq] at hblock
        obtain ⟨-, rfl⟩ := hblock
        have hspells : Spells version records
            (graph.layout.spell_v2 (unique_ids none records) ++ footer) graph.layout := by
          rw [Spells, if_pos hversion]
          exact ⟨hsorted, h.layout_valid hsorted hfits hfew, footer, rfl⟩
        obtain ⟨s, hload⟩ := load_graph_iff.2 ⟨_, hspells, rfl⟩
        exact ⟨_, s, hload, h.layout_same hsorted⟩
  · refine ⟨fun _ => Or.inl hmany, fun _ block hblock => ?_⟩
    unfold write_graph_block at hblock
    dsimp only at hblock
    rw [if_pos hmany] at hblock
    cases hblock

/-- **An arbitrary block is loaded safely** exactly when what it spells is
clean. -/
theorem safe_load_iff :
    SafeLoad version records (at_graph before bytes) ↔
      CleanBlock version records (at_graph before bytes).file.length bytes := by
  constructor
  · intro hsafe block hspells
    obtain ⟨s, hload⟩ := load_graph_iff.2 ⟨block, hspells, rfl⟩
    exact (safe_graph_iff hspells).1 (hsafe.returns _ s hload)
  · intro hclean
    refine ⟨load_graph_safe version records _, fun graph s hload => ?_⟩
    obtain ⟨block, hspells, rfl⟩ := load_graph_iff.1 ⟨s, hload⟩
    exact (safe_graph_iff hspells).2 (hclean block hspells)

/-- **Round trip and refusal of the graph block.** For every graph over the
records, `write` emits a block, and it is read back exactly when every count fits its
word (or the records are too many and nothing is written); and for every
byte string in place of a block, what `load` returns is an error or a
graph that is safe to append to exactly when the bytes spell no zero
layer count, no maximum level out of reach and, in the v1 encoding, no id
without a record. -/
theorem graph_block_sound_iff (version : ℕ) (records : List ℕ) (before : Bytes) :
    (∀ (graph : HnswGraph) (footer : Bytes),
      VERSION_ORDINAL_GRAPH ≤ version → records.Pairwise (· ≤ ·) → graph.Over records →
      ((unique_ids none records).length < U32_MAX →
        ∃ block, write_graph_block records (some graph) = .ok (1 :: block)) ∧
      (ReadsBack version records graph before footer ↔
        U32_MAX ≤ (unique_ids none records).length ∨ graph.Fits32)) ∧
    ∀ bytes : Bytes,
      SafeLoad version records (at_graph before bytes) ↔
        CleanBlock version records (at_graph before bytes).file.length bytes := by
  refine ⟨fun graph footer hversion hsorted h => ?_, fun bytes => ?_⟩
  · exact ⟨fun hfew => ⟨_, write_graph_block_eq h hsorted hfew⟩, reads_back_iff hversion hsorted h⟩
  · exact safe_load_iff

/-- Two nodes joined on level 0. -/
def sample_graph : HnswGraph where
  entry_point := some 9
  max_level := 1
  nodes := [(9, [[4], []]), (4, [[9]])]

/-- Its block after eight bytes of header and before eight of footer. -/
theorem graph_block_sound_sample :
    ReadsBack 3 [4, 4, 9] sample_graph (List.replicate 8 0) (List.replicate 8 7) := by
  refine ((graph_block_sound_iff 3 [4, 4, 9] _).1 sample_graph _ (by decide) (by decide) ?_).2.2
    (Or.inr ?_)
  · exact ⟨by decide, fun id => by simp [sample_graph, or_comm], fun id hid => by
      cases hid; decide, by decide⟩
  · exact ⟨by decide, by decide, by decide⟩

/-- A v2 block over one record whose node has a layer count of zero. -/
def zero_layers : Bytes :=
  [255, 255, 255, 255, 0, 0, 0, 0, 1, 0, 0, 0, 0, 0, 0, 0]

/-- A v1 block over the same record whose entry point has none. -/
def dangling_entry : Bytes :=
  [9, 0, 0, 0, 0, 0, 0, 0, 0, 0, 0, 0, 1, 0, 0, 0, 0, 0, 0, 0,
    7, 0, 0, 0, 0, 0, 0, 0, 1, 0, 0, 0, 0, 0, 0, 0]

/-- **Both are loaded**: the append of one more vector then underflows on the
first, and the second starts at a document that is not there. -/
theorem graph_block_sound_counterexample :
    (∃ graph s, load_graph 3 [7] (at_graph [] zero_layers) = .ok (some graph, s) ∧
      build_hnsw_graph 1 (fun _ => 0) [7, 8] (some graph) [] [] =
        .error (Fault.panicked "vec_layers.len() - 1")) ∧
    (∃ graph s, load_graph 1 [7] (at_graph [] dangling_entry) = .ok (some graph, s) ∧
      graph.entry_point = some 9) ∧
    ¬ SafeLoad 3 [7] (at_graph [] zero_layers) ∧ ¬ SafeLoad 1 [7] (at_graph [] dangling_entry) := by
  have hzero : load_graph 3 [7] (at_graph [] zero_layers) =
      .ok (some ⟨none, 0, [(7, [])]⟩, ⟨1 :: zero_layers, 17⟩) := by decide
  have hdangling : load_graph 1 [7] (at_graph [] dangling_entry) =
      .ok (some ⟨some 9, 0, [(7, [[]])]⟩, ⟨1 :: dangling_entry, 37⟩) := by decide
  refine ⟨⟨_, _, hzero, by decide⟩, ⟨_, _, hdangling, rfl⟩, fun h => ?_, fun h => ?_⟩
  · exact (h.returns _ _ hzero).levels (7, []) List.mem_cons_self rfl
  · exact absurd ((h.returns _ _ hdangling).entry_point 9 rfl) (by decide)

end Laurus
