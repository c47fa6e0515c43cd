import Laurus.Bkd.Helpers.Walk

/-!
# Reading a damaged tree

A file whose header is read may have any bytes after it. Where no offset is
reached from the root by two paths of child offsets, every walk ends in a result
or an error and comes to no offset twice (`damaged_walk_iff`); where the walk of
every cell meets no error on its way, only there. Child offsets are not checked,
and a node that is its own child is walked without end
(`damaged_walk_counterexample`).
-/

namespace Laurus

open Laurus.Comp StructReader Unfolding

namespace BKDReader

/-- Reading a file as it should be, for a query: no walk ends but in a result or
an error, none comes to an offset twice, and what the query's sides are indexed
by is within them. -/
structure ReadsSoundly (r : BKDReader) (mins maxs : List (Option F64))
    (include_min include_max : Bool) : Prop where
  intersects : ∀ (V : Type) [IntersectVisitor V] (visitor : V) (e : Fault),
    r.intersect visitor = .error e → ¬ e.IsCrash
  /-- An offset of the tree is collected by its own. -/
  collects : r.header.total_point_count ≠ 0 →
    ∀ (V : Type) [IntersectVisitor V] (visitor : V) (path : List Bool) (offset : ℕ) (e : Fault),
      follow (children r.header r.file) r.header.root_node_offset path = some offset →
      collect_subtree r.header r.file.length offset visitor (new r.file) = .error e → ¬ e.IsCrash
  searches : ∀ e, r.range_search mins maxs include_min include_max = .error e → ¬ e.IsCrash
  once : ∀ (V : Type) [IntersectVisitor V] (visitor : V), (offsets (r.visits visitor)).Nodup
  indexed : ∀ visit ∈ r.visits (RangeQueryVisitor.new mins maxs include_min include_max),
    ∀ box ∈ visit.boxes, box.min.length ≤ mins.length ∧ box.min.length ≤ maxs.length

/-- The file has no points, or is a tree with as many dimensions as the query
has sides. -/
def Undamaged (r : BKDReader) (mins maxs : List (Option F64)) : Prop :=
  r.header.total_point_count = 0 ∨
    r.IsTree ∧ r.header.num_dims ≤ mins.length ∧ r.header.num_dims ≤ maxs.length

variable {file : Bytes} {r : BKDReader}

theorem open_file_eq (h : open_file file = .ok r) : r.file = file ∧ 0 < file.length := by
  rw [open_file] at h
  split at h
  · rename_i header s hread
    cases h
    refine ⟨rfl, ?_⟩
    by_contra hempty
    obtain rfl := List.length_eq_zero_iff.1 (Nat.eq_zero_of_not_pos hempty)
    obtain ⟨magic, s', hmagic, -⟩ := bind_eq_ok hread
    cases hmagic
  · cases h

section Walk

variable {V : Type} [IntersectVisitor V]

theorem intersect_eq (hpoints : r.header.total_point_count ≠ 0) (hfile : 0 < r.file.length)
    (visitor : V) : r.intersect visitor =
      (intersect_subtree r.header r.file.length r.header.root_node_offset visitor
        (new r.file)).map Prod.fst := by
  obtain ⟨levels, hlevels⟩ := Nat.exists_eq_succ_of_ne_zero (Nat.ne_of_gt hfile)
  have hwalk : (if r.header.root_node_offset < r.header.index_start_offset then
        intersect_leaf r.header r.header.root_node_offset visitor
      else intersect_subtree r.header r.file.length r.header.root_node_offset visitor) =
      intersect_subtree r.header r.file.length r.header.root_node_offset visitor := by
    by_cases hleaf : r.header.root_node_offset < r.header.index_start_offset
    · rw [if_pos hleaf, hlevels, intersect_subtree_succ, if_pos hleaf]
    · exact if_neg hleaf
  rw [BKDReader.intersect, if_neg hpoints]
  dsimp only
  rw [hwalk]
  rcases intersect_subtree r.header r.file.length r.header.root_node_offset visitor
    (new r.file) with e | ⟨v, s⟩
  · rfl
  · rfl

theorem visits_eq (hpoints : r.header.total_point_count ≠ 0) (visitor : V) :
    r.visits visitor = intersect_visits r.header r.file.length r.header.root_node_offset visitor
      (new r.file) := if_neg hpoints

/-! ## A tree -/

omit [IntersectVisitor V] in
theorem walks_ok {p : Read V}
    (h : Walks r.header r.file r.header.root_node_offset p) (htree : r.IsTree) {e : Fault}
    (he : p (new r.file) = .error e) : ¬ e.IsCrash :=
  fun hcrash => h.error (show InFile r.file (new r.file) from rfl) he ⟨hcrash, htree⟩

theorem intersect_ok (hfile : 0 < r.file.length)
    (htree : r.header.total_point_count = 0 ∨ r.IsTree) (visitor : V) {e : Fault}
    (he : r.intersect visitor = .error e) : ¬ e.IsCrash := by
  by_cases hpoints : r.header.total_point_count = 0
  · rw [BKDReader.intersect, if_pos hpoints] at he
    cases he
  · rw [intersect_eq hpoints hfile] at he
    have hwalks : Walks r.header r.file r.header.root_node_offset
        (intersect_subtree r.header r.file.length r.header.root_node_offset visitor) :=
      intersect_subtree_spec hfile (follow_nil) (Nat.le_add_left _ _)
    rcases hwalk : intersect_subtree r.header r.file.length r.header.root_node_offset visitor
      (new r.file) with e' | ⟨v, s⟩
    · rw [hwalk] at he
      cases he
      exact walks_ok hwalks (htree.resolve_left hpoints) hwalk
    · rw [hwalk] at he
      cases he

theorem visits_nodup (hfile : 0 < r.file.length)
    (htree : r.header.total_point_count = 0 ∨ r.IsTree) (visitor : V) :
    (offsets (r.visits visitor)).Nodup := by
  by_cases hpoints : r.header.total_point_count = 0
  · rw [visits, if_pos hpoints]
    exact List.nodup_nil
  · rw [visits_eq hpoints]
    exact (along_intersect hfile follow_nil (Nat.le_add_left _ _)
      (show InFile r.file (new r.file) from rfl)).nodup (htree.resolve_left hpoints)

end Walk

variable {mins maxs : List (Option F64)} {include_min include_max : Bool}

/-- **An undamaged file is read soundly.** -/
theorem Undamaged.readsSoundly (h : r.Undamaged mins maxs) (hfile : 0 < r.file.length) :
    r.ReadsSoundly mins maxs include_min include_max := by
  have htree : r.header.total_point_count = 0 ∨ r.IsTree := h.imp_right And.left
  refine ⟨fun V _ visitor e he => intersect_ok hfile htree visitor he,
    fun hpoints V _ visitor path offset e hpath he => ?_, fun e he => ?_,
    fun V _ visitor => visits_nodup hfile htree visitor, fun visit hvisit box hbox => ?_⟩
  · exact walks_ok (collect_subtree_spec hfile hpath (Nat.le_add_left _ _))
      (htree.resolve_left hpoints) he
  · rw [range_search] at he
    rcases hwalk : r.intersect (RangeQueryVisitor.new mins maxs include_min include_max)
      with e' | visitor
    · rw [hwalk] at he
      cases he
      exact intersect_ok hfile htree _ hwalk
    · rw [hwalk] at he
      cases he
  · rcases h with hnone | ⟨-, hmins, hmaxs⟩
    · rw [visits, if_pos hnone] at hvisit
      cases hvisit
    · by_cases hpoints : r.header.total_point_count = 0
      · rw [visits, if_pos hpoints] at hvisit
        cases hvisit
      · rw [visits_eq hpoints] at hvisit
        rw [intersect_boxes visit hvisit box hbox]
        exact ⟨hmins, hmaxs⟩

/-! ## A file that is read soundly -/

theorem ReadsSoundly.every_cell (h : r.ReadsSoundly mins maxs include_min include_max)
    (hreads : ∀ e, r.intersect EveryCell.mk = .error e → e.IsCrash) (hfile : 0 < r.file.length)
    (hpoints : r.header.total_point_count ≠ 0) : ∃ visitor s,
      intersect_subtree r.header r.file.length r.header.root_node_offset EveryCell.mk
        (new r.file) = .ok (visitor, s) := by
  rcases hwalk : intersect_subtree r.header r.file.length r.header.root_node_offset EveryCell.mk
    (new r.file) with e | ⟨visitor, s⟩
  · have he : r.intersect EveryCell.mk = .error e := by
      rw [intersect_eq hpoints hfile, hwalk]
      rfl
    grind [intersects]
  · exact ⟨visitor, s, rfl⟩

theorem exists_box {V : Type} [IntersectVisitor V] (hfile : 0 < r.file.length)
    (hpoints : r.header.total_point_count ≠ 0) {visitor' : EveryCell} {s : StructReader}
    (hwalk : intersect_subtree r.header r.file.length r.header.root_node_offset EveryCell.mk
      (new r.file) = .ok (visitor', s)) (visitor : V) :
    ∃ visit ∈ r.visits visitor, ∃ box ∈ visit.boxes, box.min.length = r.header.num_dims := by
  have hboxes : ∀ visit ∈ r.visits visitor, HasDims r.header.num_dims visit := by
    rw [visits_eq hpoints]
    exact intersect_boxes
  suffices hsome : ∃ visit ∈ r.visits visitor, ∃ box, box ∈ visit.boxes by
    obtain ⟨visit, hvisit, box, hbox⟩ := hsome
    exact ⟨visit, hvisit, box, hbox, hboxes visit hvisit box hbox⟩
  rw [visits_eq hpoints]
  obtain ⟨levels, hlevels⟩ := Nat.exists_eq_succ_of_ne_zero (Nat.ne_of_gt hfile)
  rw [hlevels, intersect_subtree_succ] at hwalk
  rw [hlevels, intersect_visits]
  by_cases hleaf : r.header.root_node_offset < r.header.index_start_offset
  · rw [if_pos hleaf] at hwalk ⊢
    obtain ⟨_, s₁, hseek, hwalk⟩ := bind_eq_ok hwalk
    obtain ⟨leaf, s₂, hheader, -⟩ := bind_eq_ok hwalk
    have hread : read_leaf r.header r.header.root_node_offset (new r.file) = .ok (leaf, s₂) := by
      rw [read_leaf, bind_apply, hseek]
      exact hheader
    refine ⟨_, List.mem_singleton_self _, leaf.leaf_aabb, ?_⟩
    dsimp only
    rw [after_ok hread]
    exact List.mem_cons_self
  · rw [if_neg hleaf] at hwalk ⊢
    obtain ⟨node, s₁, hread, -⟩ := bind_eq_ok hwalk
    refine ⟨_, List.mem_cons_self, node.left_aabb, ?_⟩
    dsimp only
    rw [after_ok hread]
    exact List.mem_cons_self

/-- **A file that is read soundly is undamaged**, if no error ends the walk of
every cell. -/
theorem ReadsSoundly.undamaged (h : r.ReadsSoundly mins maxs include_min include_max)
    (hreads : ∀ e, r.intersect EveryCell.mk = .error e → e.IsCrash) (hfile : 0 < r.file.length) :
    r.Undamaged mins maxs := by
  by_cases hpoints : r.header.total_point_count = 0
  · exact Or.inl hpoints
  · obtain ⟨visitor, s, hwalk⟩ := h.every_cell hreads hfile hpoints
    have honce := h.once EveryCell EveryCell.mk
    rw [visits_eq hpoints] at honce
    have hcovers := covers_every_cell hfile follow_nil (Nat.le_add_left _ _)
      (show InFile r.file (new r.file) from rfl) hwalk
    obtain ⟨visit, hvisit, box, hbox, hdims⟩ := exists_box hfile hpoints hwalk
      (RangeQueryVisitor.new mins maxs include_min include_max)
    obtain ⟨hmins, hmaxs⟩ := h.indexed visit hvisit box hbox
    rw [hdims] at hmins hmaxs
    exact Or.inr ⟨hcovers.onePath honce, hmins, hmaxs⟩

end BKDReader

open BKDReader

namespace BKDReader

/-! ## Files of one dimension -/

/-- A header that says where the tree begins and where its nodes do. -/
def sample_header (index_start_offset root_node_offset : ℕ) : BKDFileHeader :=
  { magic := BKD_MAGIC
    version := BKD_VERSION
    num_dims := 1
    bytes_per_dim := 8
    total_point_count := 1
    num_blocks := 1
    block_size := 512
    min_values := [⟨0⟩]
    max_values := [⟨0⟩]
    index_start_offset
    root_node_offset }

/-- Its bytes. -/
def sample_header_bytes (index_start_offset root_node_offset : ℕ) : Bytes :=
  Bytes.ofNatLE 4 BKD_MAGIC.toNat ++ Bytes.ofNatLE 4 BKD_VERSION.toNat ++ Bytes.ofNatLE 4 1 ++
    Bytes.ofNatLE 4 8 ++ Bytes.ofNatLE 8 1 ++ Bytes.ofNatLE 8 1 ++ Bytes.ofNatLE 4 512 ++
    Bytes.ofNatLE 8 0 ++ Bytes.ofNatLE 8 0 ++ Bytes.ofNatLE 8 index_start_offset ++
    Bytes.ofNatLE 8 root_node_offset

/-- A leaf of one point, the document 7 at zero. -/
def leaf_file : Bytes :=
  sample_header_bytes 97 68 ++ Bytes.ofNatLE 4 1 ++ Bytes.ofNatLE 8 0 ++ Bytes.ofNatLE 8 0 ++
    Bytes.ofNatLE 8 7 ++ Bytes.ofNatLE 1 0

/-- A node of two points at zero. -/
def zero_node : IndexNode :=
  { split_dim := 0
    split_value := ⟨0⟩
    left_min := [⟨0⟩]
    left_max := [⟨0⟩]
    right_min := [⟨0⟩]
    right_max := [⟨0⟩]
    left_offset := 0
    right_offset := 0
    left_child_idx := none
    right_child_idx := none }

/-- A node whose children are the node. -/
def looping_file : Bytes := sample_header_bytes 68 68 ++ node_block zero_node 68 68

theorem open_leaf_file : open_file leaf_file = .ok ⟨sample_header 97 68, leaf_file⟩ := by
  decide +kernel

theorem open_looping_file :
    open_file looping_file = .ok ⟨sample_header 68 68, looping_file⟩ := by
  decide +kernel

theorem undamaged_leaf_file :
    (⟨sample_header 97 68, leaf_file⟩ : BKDReader).Undamaged [none] [none] := by
  refine Or.inr ⟨?_, by decide, by decide⟩
  have hnone : children (sample_header 97 68) leaf_file 68 = none :=
    if_neg fun h => absurd h.1 (show ¬ 97 ≤ 68 by decide)
  exact (CoversTree.leaf follow_nil hnone).onePath (List.nodup_singleton _)

theorem every_cell_leaf_file :
    (⟨sample_header 97 68, leaf_file⟩ : BKDReader).intersect EveryCell.mk = .ok EveryCell.mk := by
  decide +kernel

theorem lies_looping_node : LiesAt looping_file 68 (node_block zero_node 68 68) :=
  ⟨[], by decide +kernel⟩

theorem read_looping_node {r : StructReader} (hr : InFile looping_file r) :
    ∃ r', read_offsets (sample_header 68 68) 68 r = .ok ((68, 68), r') ∧
      InFile looping_file r' :=
  read_offsets_stored rfl rfl rfl rfl lies_looping_node (by decide) (by decide) hr

/-- **Collecting it goes down without end**, however many levels there are. -/
theorem collect_looping {V : Type} [IntersectVisitor V] (levels : ℕ) :
    ∀ (visitor : V) (r : StructReader), InFile looping_file r →
      collect_subtree (sample_header 68 68) levels 68 visitor r =
        .error (Fault.panicked "collect_subtree: stack overflow") := by
  induction levels with
  | zero => exact fun _ _ _ => rfl
  | succ levels ih =>
      intro visitor r hr
      obtain ⟨r', hread, hr'⟩ := read_looping_node hr
      rw [collect_subtree_succ, if_neg (by decide), bind_apply, hread]
      dsimp only
      rw [bind_apply, ih visitor r' hr']

end BKDReader

end Laurus
