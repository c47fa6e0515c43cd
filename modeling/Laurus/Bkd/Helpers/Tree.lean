import Laurus.Bkd.Helpers.Leaf
import Laurus.Bkd.Model.Reader
import Mathlib.Algebra.Order.BigOperators.Group.List

/-!
# Reading a tree back

`StoredCell` says that a cell lies in a file at an offset, with what it has below
it. A built tree is stored in its file (`stored_of_layout`), and the reader's
walk of a stored cell is the walk over the cell (`intersect_subtree_stored`).
-/

namespace Laurus

open Laurus.Comp StructReader BKDReader BKDWriter

variable {sub : F64 → F64 → F64} {ctx : BuildContext} {block_size : ℕ} {indices : List ℕ}
  {cell : Cell} {file : Bytes} {header : BKDFileHeader}

/-! ## Where the cells lie -/

/-- `bytes` lie in the file from `offset` on. -/
def LiesAt (file : Bytes) (offset : ℕ) (bytes : Bytes) : Prop :=
  ∃ t, file.drop offset = bytes ++ t

namespace LiesAt

variable {offset : ℕ} {bs cs : Bytes}

theorem left (h : LiesAt file offset (bs ++ cs)) : LiesAt file offset bs := by
  obtain ⟨t, ht⟩ := h
  exact ⟨cs ++ t, by rw [ht, List.append_assoc]⟩

theorem right (h : LiesAt file offset (bs ++ cs)) : LiesAt file (offset + bs.length) cs := by
  obtain ⟨t, ht⟩ := h
  exact ⟨t, by rw [← List.drop_drop, ht, List.append_assoc, List.drop_left]⟩

theorem le_length (h : LiesAt file offset bs) (hne : bs ≠ []) :
    offset + bs.length ≤ file.length := by
  obtain ⟨t, ht⟩ := h
  have hlen := congrArg List.length ht
  have hpos := List.length_pos_iff.2 hne
  grind

end LiesAt

/-- The cell lies at the offset, and a node's halves where it says. -/
def StoredCell (file : Bytes) (ctx : BuildContext) (index_start : ℕ) : Cell → ℕ → Prop
  | .leaf min max indices, offset =>
    offset < index_start ∧ LiesAt file offset (leaf_block ctx indices min max)
  | .node _ _ _ _ left right, offset =>
    index_start ≤ offset ∧ ∃ (node : IndexNode) (left_offset right_offset : ℕ),
      node.left_min = left.min ∧ node.left_max = left.max ∧ node.right_min = right.min ∧
      node.right_max = right.max ∧
      LiesAt file offset (node_block node left_offset right_offset) ∧
      StoredCell file ctx index_start left left_offset ∧
      StoredCell file ctx index_start right right_offset

/-- Where a cell is, whose leaves begin at `pos` and before whose nodes come `base`. -/
def Cell.offset (start_pos node_size base pos : ℕ) (cell : Cell) : ℕ :=
  child_offset start_pos node_size pos (cell.node_idx base)

theorem Built.lengths (h : Built sub ctx block_size indices cell) :
    cell.min.length = ctx.num_dims ∧ cell.max.length = ctx.num_dims := by
  rw [h.min_max.1, h.min_max.2]
  exact ⟨(compute_aabb_bounds ctx indices).min_length, (compute_aabb_bounds ctx indices).max_length⟩

theorem length_node_block {node : IndexNode} {n left_offset right_offset : ℕ}
    (hlmin : node.left_min.length = n) (hlmax : node.left_max.length = n)
    (hrmin : node.right_min.length = n) (hrmax : node.right_max.length = n) :
    (node_block node left_offset right_offset).length = node_size n := by
  grind [node_block, Bytes.length_ofNatLE, length_f64_bytes, node_size]

theorem leaf_block_ne_nil (ctx : BuildContext) (indices : List ℕ) (min max : List F64) :
    leaf_block ctx indices min max ≠ [] := by
  refine List.ne_nil_of_length_pos ?_
  simp only [leaf_block, leaf_fields, List.length_append, Bytes.length_ofNatLE]
  omega

theorem index_block_append (start_pos node_size : ℕ) (xs ys : List IndexNode) :
    index_block start_pos node_size (xs ++ ys) =
      index_block start_pos node_size xs ++ index_block start_pos node_size ys :=
  List.flatMap_append

theorem length_index_block (h : Built sub ctx block_size indices cell) (start_pos base pos : ℕ) :
    (index_block start_pos (node_size ctx.num_dims) (cell.nodes ctx base pos)).length =
      cell.size * node_size ctx.num_dims := by
  induction h generalizing base pos with
  | leaf hne hfits => simp [Cell.nodes, index_block, Cell.size]
  | node hmany hdim hsorted hleft hright ihl ihr =>
      rw [Cell.nodes, ← List.singleton_append, index_block_append, index_block_append,
        List.length_append, List.length_append, ihl, ihr, index_block, List.flatMap_singleton,
        length_node_block hleft.lengths.1 hleft.lengths.2 hright.lengths.1 hright.lengths.2,
        Cell.size]
      ring

theorem node_block_ne_nil (node : IndexNode) (left_offset right_offset : ℕ) :
    node_block node left_offset right_offset ≠ [] := by
  refine List.ne_nil_of_length_pos ?_
  simp only [node_block, List.length_append, Bytes.length_ofNatLE]
  omega

theorem StoredCell.lt_length {index_start offset : ℕ} (h : StoredCell file ctx index_start cell offset) :
    offset < file.length := by
  rcases cell with ⟨min, max, indices⟩ | _
  · have hne := leaf_block_ne_nil ctx indices min max
    have hpos := List.length_pos_iff.2 hne
    have hle := h.2.le_length hne
    omega
  · obtain ⟨-, node, left_offset, right_offset, -, -, -, -, hlies, -⟩ := h
    have hne := node_block_ne_nil node left_offset right_offset
    have hpos := List.length_pos_iff.2 hne
    have hle := hlies.le_length hne
    omega

theorem child_offset_ite (start_pos node_size pos : ℕ) (idx : Option ℕ) :
    child_offset start_pos node_size (if idx = none then pos else 0) idx =
      child_offset start_pos node_size pos idx := by
  rcases idx with _ | idx
  · rfl
  · rfl

/-- **The cells lie where the builder says**, in a file with their leaves and their nodes. -/
theorem stored_of_layout (h : Built sub ctx block_size indices cell) {start_pos : ℕ} :
    ∀ base pos : ℕ, LiesAt file pos (cell.leaves ctx) →
      LiesAt file (start_pos + base * node_size ctx.num_dims)
        (index_block start_pos (node_size ctx.num_dims) (cell.nodes ctx base pos)) →
      pos + (cell.leaves ctx).length ≤ start_pos →
      StoredCell file ctx start_pos cell (cell.offset start_pos (node_size ctx.num_dims) base pos) := by
  induction h with
  | @leaf indices hne hfits =>
      intro base pos hleaves _ hpos
      have hblock := List.length_pos_iff.2 (leaf_block_ne_nil ctx indices
        (compute_aabb ctx indices).1 (compute_aabb ctx indices).2)
      exact ⟨lt_of_lt_of_le (Nat.lt_add_of_pos_right hblock) hpos, hleaves⟩
  | @node indices sorted split_dim left right hmany hdim hsorted hleft hright ihl ihr =>
      intro base pos hleaves hnodes hpos
      rw [Cell.leaves] at hleaves hpos
      rw [List.length_append] at hpos
      rw [Cell.nodes, ← List.singleton_append, index_block_append, index_block_append] at hnodes
      have hnode := hnodes.left
      -- the nodes of the left half follow the node, and those of the right half these
      have hbelow := hnodes.right
      rw [index_block, List.flatMap_singleton, length_node_block hleft.lengths.1 hleft.lengths.2
        hright.lengths.1 hright.lengths.2, Nat.add_assoc, ← Nat.succ_mul] at hbelow
      have hrights := hbelow.right
      rw [length_index_block hleft, Nat.add_assoc, ← Nat.add_mul] at hrights
      rw [index_block, List.flatMap_singleton, child_offset_ite, child_offset_ite] at hnode
      refine ⟨Nat.le_add_right _ _, _, _, _, ?_, ?_, ?_, ?_, hnode,
        ihl (base + 1) pos hleaves.left hbelow.left (by omega),
        ihr (base + 1 + left.size) (pos + (left.leaves ctx).length) hleaves.right hrights
          (by omega)⟩
      all_goals rfl

/-! ## A leaf of a file -/

/-- The header is that of a tree whose points the context has. -/
structure HeaderOf (header : BKDFileHeader) (ctx : BuildContext) (block_size index_start : ℕ) :
    Prop where
  dims : header.num_dims = ctx.num_dims
  block_size : header.block_size = block_size
  index_start : header.index_start_offset = index_start

/-- The points of a cell are as many as the header and a leaf's count allow. -/
structure CountedPoints (header : BKDFileHeader) (indices : List ℕ) : Prop where
  total : indices.length ≤ header.total_point_count
  count : indices.length < 2 ^ 32

theorem CountedPoints.of_length_le {others : List ℕ} (h : CountedPoints header indices)
    (hle : others.length ≤ indices.length) : CountedPoints header others :=
  ⟨hle.trans h.total, lt_of_le_of_lt hle h.count⟩

section Leaf

variable {V : Type} [IntersectVisitor V] {index_start offset : ℕ} {visitor : V}

/-- The bytes that a leaf's header is before. -/
structure AtColumns (file : Bytes) (ctx : BuildContext) (indices : List ℕ) (r : StructReader) :
    Prop where
  file_eq : r.file = file
  rest : ∃ t, r.rest = leaf_columns ctx indices (compute_aabb ctx indices).1
    (compute_aabb ctx indices).2 ++ (doc_bytes ctx indices ++ t)

variable {box : AABB} {r : StructReader}

/-- **A stored leaf's header reads back.** -/
theorem read_stored_leaf (hheader : HeaderOf header ctx block_size index_start)
    (hcounted : CountedPoints header indices) (hsize : file.length < 2 ^ 64)
    (hfits : indices.length ≤ block_size)
    (hbox : AABB.new (compute_aabb ctx indices).1 (compute_aabb ctx indices).2 = .ok box)
    (hmin : box.min = (compute_aabb ctx indices).1) (hmax : box.max = (compute_aabb ctx indices).2)
    (hlies : LiesAt file offset (leaf_block ctx indices (compute_aabb ctx indices).1
      (compute_aabb ctx indices).2)) (hfile : r.file = file) :
    ∃ r₁ r₂, seek (.Start offset) r = .ok (offset, r₁) ∧
      read_leaf_fixed_header header.num_dims header.total_point_count header.block_size r₁ =
        .ok (leaf_header ctx indices (compute_aabb ctx indices).1 (compute_aabb ctx indices).2 box,
          r₂) ∧
      AtColumns file ctx indices r₂ := by
  obtain ⟨r₁, hseek, hrest, hfile₁⟩ := seek_offset r offset
  obtain ⟨t, ht⟩ := hlies
  rw [hfile] at hrest
  have hlen : r₁.rest.length < 2 ^ 64 := by
    rw [hrest, List.length_drop]
    omega
  rw [ht, leaf_block] at hrest
  simp only [List.append_assoc] at hrest
  obtain ⟨r₂, hread, hrest₂, hfile₂⟩ := read_leaf_header (compute_aabb_bounds ctx indices) hbox
    hmin hmax hcounted.count hcounted.total (hheader.block_size.symm ▸ hfits) hrest hlen
  rw [← hheader.dims] at hread
  exact ⟨r₁, r₂, hseek, hread, hfile₂.trans (hfile₁.trans hfile), t, hrest₂⟩

theorem gives_skip_points {min max : List F64} {box : AABB} (hbounds : Bounds ctx indices min max) :
    Gives (skip_points (leaf_header ctx indices min max box)) (leaf_columns ctx indices min max)
      () := by
  have hsum := sum_section_lens hbounds
  rw [skip_points]
  simp only [leaf_header, hsum]
  by_cases hpos : 0 < (leaf_columns ctx indices min max).length
  · rw [if_pos hpos]
    exact gives_seek
  · rw [if_neg hpos, List.length_eq_zero_iff.1 (Nat.eq_zero_of_not_pos hpos)]
    exact Gives.pure ()

theorem AtColumns.lengths (h : AtColumns file ctx indices r)
    (hsize : file.length < 2 ^ 64) :
    (leaf_columns ctx indices (compute_aabb ctx indices).1 (compute_aabb ctx indices).2).length <
        2 ^ 64 ∧ (doc_bytes ctx indices).length < 2 ^ 64 := by
  grind [rest, StructReader.rest, List.length_drop, file_eq]

theorem AtColumns.collect (h : AtColumns file ctx indices r)
    (hsize : file.length < 2 ^ 64) (hne : indices ≠ []) (visitor : V) :
    ∃ r', (do
        skip_points (leaf_header ctx indices (compute_aabb ctx indices).1
          (compute_aabb ctx indices).2 box)
        decode_doc_ids_and_dispatch (leaf_header ctx indices (compute_aabb ctx indices).1
          (compute_aabb ctx indices).2 box) none visitor : Read V) r =
        .ok (visit_docs ctx indices visitor, r') ∧ r'.file = file := by
  obtain ⟨t, ht⟩ := h.rest
  rw [← List.append_assoc] at ht
  have hdocs := @gives_docs V _ ctx indices (compute_aabb ctx indices).1
    (compute_aabb ctx indices).2 box hne (h.lengths hsize).2 none visitor
  have hskip := @gives_skip_points ctx indices _ _ box (compute_aabb_bounds ctx indices)
  obtain ⟨r', hrun, -, hfile⟩ := hskip.bind (f := fun _ => decode_doc_ids_and_dispatch _ none _)
    hdocs r t ht
  rw [foldl_dispatch_none] at hrun
  exact ⟨r', hrun, hfile.trans h.file_eq⟩

theorem AtColumns.visit (h : AtColumns file ctx indices r)
    (hsize : file.length < 2 ^ 64) (hne : indices ≠ []) (visitor : V) :
    ∃ r', (do
        let columns ← decode_points_into (leaf_header ctx indices (compute_aabb ctx indices).1
          (compute_aabb ctx indices).2 box) (List.range ctx.num_dims)
        decode_doc_ids_and_dispatch (leaf_header ctx indices (compute_aabb ctx indices).1
          (compute_aabb ctx indices).2 box) (some columns) visitor : Read V) r =
        .ok (visit_points ctx indices visitor, r') ∧ r'.file = file := by
  have hlengths := h.lengths hsize
  have hdim : ∀ d ∈ List.range ctx.num_dims, (dim_bytes ctx indices (compute_aabb ctx indices).1
      (compute_aabb ctx indices).2 d).length < 2 ^ 64 := by
    intro d hd
    refine lt_of_le_of_lt ?_ hlengths.1
    rw [leaf_columns, List.length_flatMap]
    exact List.le_sum_of_mem (List.mem_map.2 ⟨d, hd, rfl⟩)
  obtain ⟨t, ht⟩ := h.rest
  rw [← List.append_assoc] at ht
  have hdocs := @gives_docs V _ ctx indices (compute_aabb ctx indices).1
    (compute_aabb ctx indices).2 box hne hlengths.2 (some ((List.range ctx.num_dims).map fun d =>
      (leaf_order ctx indices).map (ctx.value · d))) visitor
  have hpoints := @gives_points ctx indices _ _ box hne (compute_aabb_bounds ctx indices)
    (List.range ctx.num_dims) (fun d hd => List.mem_range.1 hd) hdim
  obtain ⟨r', hrun, -, hfile⟩ := hpoints.bind
    (f := fun columns => decode_doc_ids_and_dispatch _ (some columns) _) hdocs r t ht
  rw [foldl_dispatch_points] at hrun
  exact ⟨r', hrun, hfile.trans h.file_eq⟩

/-- **A stored leaf's documents are collected.** -/
theorem collect_leaf_stored (hheader : HeaderOf header ctx block_size index_start)
    (hcounted : CountedPoints header indices) (hsize : file.length < 2 ^ 64)
    (hdims : 0 < ctx.num_dims) (hnumbers : Numbers ctx indices) (hne : indices ≠ [])
    (hfits : indices.length ≤ block_size)
    (hlies : LiesAt file offset (leaf_block ctx indices (compute_aabb ctx indices).1
      (compute_aabb ctx indices).2)) (visitor : V) (hfile : r.file = file) :
    ∃ r', collect_leaf header offset visitor r = .ok (visit_docs ctx indices visitor, r') ∧
      r'.file = file := by
  obtain ⟨box, hbox, hmin, hmax⟩ := exists_aabb hdims hne hnumbers
  obtain ⟨r₁, r₂, hseek, hread, hat⟩ :=
    read_stored_leaf hheader hcounted hsize hfits hbox hmin hmax hlies hfile
  rw [collect_leaf, bind_apply, hseek]
  dsimp only
  rw [bind_apply, hread]
  exact hat.collect hsize hne visitor

/-- **A stored leaf is walked as the leaf is.** -/
theorem intersect_leaf_stored (hheader : HeaderOf header ctx block_size index_start)
    (hcounted : CountedPoints header indices) (hsize : file.length < 2 ^ 64)
    (hdims : 0 < ctx.num_dims) (hnumbers : Numbers ctx indices) (hne : indices ≠ [])
    (hfits : indices.length ≤ block_size)
    (hlies : LiesAt file offset (leaf_block ctx indices (compute_aabb ctx indices).1
      (compute_aabb ctx indices).2)) (visitor : V) (hfile : r.file = file) :
    ∃ r', intersect_leaf header offset visitor r =
      .ok ((Cell.leaf (compute_aabb ctx indices).1 (compute_aabb ctx indices).2 indices).intersect
        ctx visitor, r') ∧ r'.file = file := by
  obtain ⟨box, hbox, hmin, hmax⟩ := exists_aabb hdims hne hnumbers
  obtain ⟨r₁, r₂, hseek, hread, hat⟩ :=
    read_stored_leaf hheader hcounted hsize hfits hbox hmin hmax hlies hfile
  rw [intersect_leaf, bind_apply, hseek]
  dsimp only
  rw [bind_apply, hread, Cell.intersect, relation, hbox]
  dsimp only
  rw [leaf_header]
  dsimp only
  rcases IntersectVisitor.compare visitor box
  · exact hat.collect hsize hne visitor
  · exact ⟨r₂, rfl, hat.file_eq⟩
  · rw [hheader.dims]
    exact hat.visit hsize hne visitor

end Leaf

/-! ## The subtrees of a file -/

theorem Cell.leaf_count_pos (cell : Cell) : 0 < cell.leaf_count := by
  induction cell with
  | leaf min max indices => exact Nat.one_pos
  | node _ _ _ _ left right ihl _ =>
      rw [leaf_count]
      omega

theorem Cell.leaf_count_le_length (ctx : BuildContext) (cell : Cell) :
    cell.leaf_count ≤ (cell.leaves ctx).length := by
  induction cell with
  | leaf min max indices => exact List.length_pos_iff.2 (leaf_block_ne_nil ctx indices min max)
  | node _ _ _ _ left right ihl ihr =>
      rw [leaf_count, leaves, List.length_append]
      omega

theorem toNat_ofNat_offset {n : ℕ} (h : n < 2 ^ 64) : (UInt64.ofNat n).toNat = n := by
  rw [UInt64.toNat_ofNat']
  omega

/-! ## A node of a file -/

section Node

variable {node : IndexNode} {left_offset right_offset offset : ℕ} {r : StructReader}

theorem read_offsets_stored (hlmin : node.left_min.length = header.num_dims)
    (hlmax : node.left_max.length = header.num_dims)
    (hrmin : node.right_min.length = header.num_dims)
    (hrmax : node.right_max.length = header.num_dims)
    (hlies : LiesAt file offset (node_block node left_offset right_offset))
    (hl : left_offset < 2 ^ 64) (hr : right_offset < 2 ^ 64) (hfile : r.file = file) :
    ∃ r', read_offsets header offset r = .ok ((left_offset, right_offset), r') ∧
      r'.file = file := by
  obtain ⟨t, ht⟩ := hlies
  have hboxes : (f64_bytes node.left_min ++ (f64_bytes node.left_max ++
      (f64_bytes node.right_min ++ f64_bytes node.right_max))).length =
      header.num_dims * 16 * 2 := by
    grind [length_f64_bytes]
  obtain ⟨r₀, h₀, hrest₀, hfile₀⟩ := seek_offset r offset
  rw [hfile, ht, node_block] at hrest₀
  simp only [List.append_assoc] at hrest₀
  rw [read_offsets, bind_apply, h₀]
  dsimp only
  obtain ⟨r₁, h₁, hrest₁, hfile₁⟩ := gives_u32 _ r₀ _ hrest₀
  rw [bind_apply, h₁]
  dsimp only
  obtain ⟨r₂, h₂, hrest₂, hfile₂⟩ := gives_u64 _ r₁ _ hrest₁
  rw [bind_apply, StructReader.read_f64, h₂]
  dsimp only
  have hrest₂' : r₂.rest = (f64_bytes node.left_min ++ (f64_bytes node.left_max ++
      (f64_bytes node.right_min ++ f64_bytes node.right_max))) ++
        (Bytes.ofNatLE 8 (UInt64.ofNat left_offset).toNat ++
          (Bytes.ofNatLE 8 (UInt64.ofNat right_offset).toNat ++ t)) := by grind
  obtain ⟨_, r₃, h₃, hrest₃, hfile₃⟩ := seek_current hrest₂'
  rw [hboxes] at h₃
  rw [bind_apply, h₃]
  dsimp only
  obtain ⟨r₄, h₄, hrest₄, hfile₄⟩ := gives_u64 _ r₃ _ hrest₃
  rw [bind_apply, h₄]
  dsimp only
  obtain ⟨r₅, h₅, hrest₅, hfile₅⟩ := gives_u64 _ r₄ _ hrest₄
  rw [bind_apply, h₅]
  dsimp only
  rw [toNat_ofNat_offset hl, toNat_ofNat_offset hr]
  exact ⟨r₅, rfl, by grind⟩

theorem read_node_stored {lbox rbox : AABB} (hlmin : node.left_min.length = header.num_dims)
    (hlmax : node.left_max.length = header.num_dims)
    (hrmin : node.right_min.length = header.num_dims)
    (hrmax : node.right_max.length = header.num_dims)
    (hlbox : AABB.new node.left_min node.left_max = .ok lbox)
    (hrbox : AABB.new node.right_min node.right_max = .ok rbox)
    (hlies : LiesAt file offset (node_block node left_offset right_offset))
    (hl : left_offset < 2 ^ 64) (hr : right_offset < 2 ^ 64) (hfile : r.file = file) :
    ∃ r', read_node header offset r = .ok (⟨lbox, rbox, left_offset, right_offset⟩, r') ∧
      r'.file = file := by
  obtain ⟨t, ht⟩ := hlies
  obtain ⟨r₀, h₀, hrest₀, hfile₀⟩ := seek_offset r offset
  rw [hfile, ht, node_block] at hrest₀
  simp only [List.append_assoc] at hrest₀
  rw [read_node, bind_apply, h₀]
  dsimp only
  obtain ⟨r₁, h₁, hrest₁, hfile₁⟩ := gives_u32 _ r₀ _ hrest₀
  rw [bind_apply, h₁]
  dsimp only
  obtain ⟨r₂, h₂, hrest₂, hfile₂⟩ := gives_u64 _ r₁ _ hrest₁
  rw [bind_apply, StructReader.read_f64, h₂]
  dsimp only
  rw [← List.append_assoc] at hrest₂
  obtain ⟨r₃, h₃, hrest₃, hfile₃⟩ := gives_child_aabb hlmin hlmax hlbox r₂ _ hrest₂
  rw [bind_apply, h₃]
  dsimp only
  rw [← List.append_assoc] at hrest₃
  obtain ⟨r₄, h₄, hrest₄, hfile₄⟩ := gives_child_aabb hrmin hrmax hrbox r₃ _ hrest₃
  rw [bind_apply, h₄]
  dsimp only
  obtain ⟨r₅, h₅, hrest₅, hfile₅⟩ := gives_u64 _ r₄ _ hrest₄
  rw [bind_apply, h₅]
  dsimp only
  obtain ⟨r₆, h₆, hrest₆, hfile₆⟩ := gives_u64 _ r₅ _ hrest₅
  rw [bind_apply, h₆]
  dsimp only
  rw [toNat_ofNat_offset hl, toNat_ofNat_offset hr]
  exact ⟨r₆, rfl, by grind⟩

end Node

section Subtree

variable {V : Type} [IntersectVisitor V] {index_start : ℕ}

theorem collect_subtree_succ (header : BKDFileHeader) (levels offset : ℕ) (visitor : V) :
    collect_subtree header (levels + 1) offset visitor =
      if offset < header.index_start_offset then collect_leaf header offset visitor
      else read_offsets header offset >>= fun both =>
        collect_subtree header levels both.1 visitor >>= fun visitor =>
          collect_subtree header levels both.2 visitor := by
  rw [collect_subtree, read_offsets]
  simp only [bind_assoc, pure_bind]

theorem intersect_subtree_succ (header : BKDFileHeader) (levels offset : ℕ) (visitor : V) :
    intersect_subtree header (levels + 1) offset visitor =
      if offset < header.index_start_offset then intersect_leaf header offset visitor
      else read_node header offset >>= fun node =>
        read_child (IntersectVisitor.compare visitor node.left_aabb) visitor
            (collect_subtree header levels node.left_offset visitor)
            (intersect_subtree header levels node.left_offset visitor) >>= fun visitor =>
          read_child (IntersectVisitor.compare visitor node.right_aabb) visitor
            (collect_subtree header levels node.right_offset visitor)
            (intersect_subtree header levels node.right_offset visitor) := by
  rw [intersect_subtree, read_node]
  simp only [bind_assoc, pure_bind]
  rfl

theorem CountedPoints.halves {sorted : List ℕ} (h : CountedPoints header indices)
    (hperm : sorted.Perm indices) (n : ℕ) :
    CountedPoints header (sorted.take n) ∧ CountedPoints header (sorted.drop n) := by
  grind [List.Perm.length_eq, of_length_le]

theorem Numbers.halves {sorted : List ℕ} (h : Numbers ctx indices) (hperm : sorted.Perm indices)
    (n : ℕ) : Numbers ctx (sorted.take n) ∧ Numbers ctx (sorted.drop n) :=
  ⟨fun i hi => h i (hperm.mem_iff.1 (List.mem_of_mem_take hi)),
    fun i hi => h i (hperm.mem_iff.1 (List.mem_of_mem_drop hi))⟩

/-- **A stored subtree is collected as the cell is.** -/
theorem collect_subtree_stored (hheader : HeaderOf header ctx block_size index_start)
    (hsize : file.length < 2 ^ 64) (hdims : 0 < ctx.num_dims)
    (h : Built sub ctx block_size indices cell) :
    CountedPoints header indices → Numbers ctx indices →
      ∀ (levels offset : ℕ) (visitor : V) (r : StructReader), cell.leaf_count ≤ levels →
        StoredCell file ctx index_start cell offset → r.file = file →
        ∃ r', collect_subtree header levels offset visitor r =
          .ok (cell.collect ctx visitor, r') ∧ r'.file = file := by
  induction h with
  | leaf hne hfits =>
      rintro hcounted hnumbers (_ | levels) offset visitor r hlevels ⟨hbefore, hlies⟩ hfile
      · exact absurd hlevels (by rw [Cell.leaf_count]; omega)
      · rw [collect_subtree, hheader.index_start, if_pos hbefore]
        exact collect_leaf_stored hheader hcounted hsize hdims hnumbers hne hfits hlies visitor
          hfile
  | @node indices sorted split_dim left right hmany hdim hsorted hleft hright ihl ihr =>
      rintro hcounted hnumbers (_ | levels) offset visitor r hlevels hstored hfile
      · exact absurd hlevels (not_le.2 (Cell.leaf_count_pos _))
      have hperm : sorted.Perm indices := hsorted ▸ List.perm_insertionSort _ _
      obtain ⟨hcl, hcr⟩ := hcounted.halves hperm (indices.length / 2)
      obtain ⟨hnl, hnr⟩ := hnumbers.halves hperm (indices.length / 2)
      rw [Cell.leaf_count] at hlevels
      have hposl := left.leaf_count_pos
      have hposr := right.leaf_count_pos
      obtain ⟨hafter, node, left_offset, right_offset, hlmin, hlmax, hrmin, hrmax, hlies,
        hstoredl, hstoredr⟩ := hstored
      have hdim := hheader.dims
      obtain ⟨r₁, hread, hfile₁⟩ := read_offsets_stored (by rw [hlmin, hleft.lengths.1, hdim])
        (by rw [hlmax, hleft.lengths.2, hdim]) (by rw [hrmin, hright.lengths.1, hdim])
        (by rw [hrmax, hright.lengths.2, hdim]) hlies (hstoredl.lt_length.trans hsize)
        (hstoredr.lt_length.trans hsize) hfile
      obtain ⟨r₂, hcollect, hfile₂⟩ :=
        ihl hcl hnl levels left_offset visitor r₁ (by omega) hstoredl hfile₁
      rw [collect_subtree_succ, hheader.index_start, if_neg (not_lt.2 hafter), bind_apply, hread]
      dsimp only
      rw [bind_apply, hcollect]
      exact ihr hcr hnr levels right_offset _ r₂ (by omega) hstoredr hfile₂

theorem read_child_eq {min max : List F64} {box : AABB} {collect intersect : Read V}
    {collected walked : V} {r : StructReader} (hbox : AABB.new min max = .ok box) (visitor : V)
    (hcollect : ∃ r', collect r = .ok (collected, r') ∧ r'.file = file)
    (hintersect : ∃ r', intersect r = .ok (walked, r') ∧ r'.file = file) (hfile : r.file = file) :
    ∃ r', read_child (IntersectVisitor.compare visitor box) visitor collect intersect r =
      .ok (Cell.by_relation (relation visitor min max) visitor collected walked, r') ∧
        r'.file = file := by
  rw [relation, hbox]
  dsimp only
  rcases IntersectVisitor.compare visitor box
  · exact hcollect
  · exact ⟨r, rfl, hfile⟩
  · exact hintersect

/-- **A stored subtree is walked as the cell is.** -/
theorem intersect_subtree_stored (hheader : HeaderOf header ctx block_size index_start)
    (hsize : file.length < 2 ^ 64) (hdims : 0 < ctx.num_dims)
    (h : Built sub ctx block_size indices cell) :
    CountedPoints header indices → Numbers ctx indices →
      ∀ (levels offset : ℕ) (visitor : V) (r : StructReader), cell.leaf_count ≤ levels →
        StoredCell file ctx index_start cell offset → r.file = file →
        ∃ r', intersect_subtree header levels offset visitor r =
          .ok (cell.intersect ctx visitor, r') ∧ r'.file = file := by
  induction h with
  | leaf hne hfits =>
      rintro hcounted hnumbers (_ | levels) offset visitor r hlevels ⟨hbefore, hlies⟩ hfile
      · exact absurd hlevels (by rw [Cell.leaf_count]; omega)
      · rw [intersect_subtree, hheader.index_start, if_pos hbefore]
        exact intersect_leaf_stored hheader hcounted hsize hdims hnumbers hne hfits hlies visitor
          hfile
  | @node indices sorted split_dim left right hmany hdim hsorted hleft hright ihl ihr =>
      rintro hcounted hnumbers (_ | levels) offset visitor r hlevels hstored hfile
      · exact absurd hlevels (not_le.2 (Cell.leaf_count_pos _))
      have hperm : sorted.Perm indices := hsorted ▸ List.perm_insertionSort _ _
      obtain ⟨hcl, hcr⟩ := hcounted.halves hperm (indices.length / 2)
      obtain ⟨hnl, hnr⟩ := hnumbers.halves hperm (indices.length / 2)
      rw [Cell.leaf_count] at hlevels
      have hposl := left.leaf_count_pos
      have hposr := right.leaf_count_pos
      obtain ⟨hafter, node, left_offset, right_offset, hlmin, hlmax, hrmin, hrmax, hlies,
        hstoredl, hstoredr⟩ := hstored
      obtain ⟨lbox, hlbox, -, -⟩ := exists_aabb hdims hleft.ne_nil hnl
      obtain ⟨rbox, hrbox, -, -⟩ := exists_aabb hdims hright.ne_nil hnr
      rw [← hleft.min_max.1, ← hleft.min_max.2] at hlbox
      rw [← hright.min_max.1, ← hright.min_max.2] at hrbox
      have hdim := hheader.dims
      obtain ⟨r₁, hread, hfile₁⟩ := read_node_stored (by rw [hlmin, hleft.lengths.1, hdim])
        (by rw [hlmax, hleft.lengths.2, hdim]) (by rw [hrmin, hright.lengths.1, hdim])
        (by rw [hrmax, hright.lengths.2, hdim]) (by rw [hlmin, hlmax, hlbox])
        (by rw [hrmin, hrmax, hrbox]) hlies (hstoredl.lt_length.trans hsize)
        (hstoredr.lt_length.trans hsize) hfile
      rw [intersect_subtree_succ, hheader.index_start, if_neg (not_lt.2 hafter), bind_apply, hread]
      dsimp only
      -- each half is passed by, collected or walked, as its box says
      obtain ⟨r₂, hchild, hfile₂⟩ := read_child_eq hlbox visitor
        (collect_subtree_stored hheader hsize hdims hleft hcl hnl levels left_offset visitor r₁
          (by omega) hstoredl hfile₁)
        (ihl hcl hnl levels left_offset visitor r₁ (by omega) hstoredl hfile₁) hfile₁
      rw [bind_apply, hchild]
      exact read_child_eq hrbox _
        (collect_subtree_stored hheader hsize hdims hright hcr hnr levels right_offset _ r₂
          (by omega) hstoredr hfile₂)
        (ihr hcr hnr levels right_offset _ r₂ (by omega) hstoredr hfile₂) hfile₂

end Subtree

end Laurus
