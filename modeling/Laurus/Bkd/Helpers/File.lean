import Laurus.Bkd.Helpers.Tree

/-!
# Opening a tree's file

The header reads back (`open_file_header`), and a walk from the root is a
walk over the cell that was built (`intersect_file`).
-/

namespace Laurus

open Laurus.Comp StructReader BKDReader BKDWriter

variable {sub : F64 → F64 → F64} {ctx : BuildContext} {block_size : ℕ} {indices : List ℕ}
  {cell : Cell} {header : BKDFileHeader}

/-! ## The header -/

/-- The numbers of a header that are written in so many bits. -/
structure Fields32 (header : BKDFileHeader) : Prop where
  magic : header.magic = BKD_MAGIC
  version : header.version = BKD_VERSION
  bytes_per_dim : header.bytes_per_dim = 8
  num_dims : header.num_dims < 2 ^ 32
  block_size : header.block_size < 2 ^ 32
  total_point_count : header.total_point_count < 2 ^ 64
  num_blocks : header.num_blocks < 2 ^ 64
  index_start_offset : header.index_start_offset < 2 ^ 64
  root_node_offset : header.root_node_offset < 2 ^ 64
  min_values : header.min_values.length = header.num_dims
  max_values : header.max_values.length = header.num_dims

/-- **A header reads back.** -/
theorem gives_header (h : Fields32 header) {r : StructReader} {t : Bytes}
    (hr : r.rest = header_block header.num_dims header.total_point_count header.num_blocks
      header.block_size header.min_values header.max_values header.index_start_offset
        header.root_node_offset ++ t) :
    ∃ r', read_header r = .ok (header, r') := by
  have hdims32 : (UInt32.ofNat header.num_dims).toNat = header.num_dims := toNat_ofNat_lt h.num_dims
  have hblock32 : (UInt32.ofNat header.block_size).toNat = header.block_size :=
    toNat_ofNat_lt h.block_size
  simp only [header_block, List.append_assoc] at hr
  obtain ⟨r₁, h₁, hrest₁, -⟩ := Gives.of_reads (reads_u32 _) r _ hr
  obtain ⟨r₂, h₂, hrest₂, -⟩ := Gives.of_reads (reads_u32 _) r₁ _ hrest₁
  obtain ⟨r₃, h₃, hrest₃, -⟩ := gives_u32 _ r₂ _ hrest₂
  obtain ⟨r₄, h₄, hrest₄, -⟩ := Gives.of_reads (reads_u32 _) r₃ _ hrest₃
  rw [read_header, bind_apply, h₁]
  dsimp only
  rw [if_neg (not_not.2 rfl), bind_apply, h₂]
  dsimp only
  rw [if_neg (not_not.2 rfl), bind_apply, h₃]
  dsimp only
  rw [bind_apply, h₄]
  dsimp only
  rw [if_neg (not_not.2 rfl), bind_apply, get_apply, hdims32]
  dsimp only
  -- the values that follow are more than what the dimensions reserve
  have hremaining := congrArg List.length hrest₄
  simp only [List.length_append, Bytes.length_ofNatLE, length_f64_bytes, h.min_values,
    h.max_values, length_rest] at hremaining
  have hchecked := (@checked_capacity_u64_eq_ok header.num_dims 16 r₄.remaining header.num_dims
    "BKD num_dims").2 ⟨by rw [Nat.max_eq_left (by decide)]; omega,
      h.num_dims.trans (by decide), rfl⟩
  rw [hchecked]
  obtain ⟨r₅, h₅, hrest₅, -⟩ := gives_u64 _ r₄ _ hrest₄
  obtain ⟨r₆, h₆, hrest₆, -⟩ := gives_u64 _ r₅ _ hrest₅
  obtain ⟨r₇, h₇, hrest₇, -⟩ := gives_u32 _ r₆ _ hrest₆
  have hmins := gives_f64s header.min_values
  have hmaxs := gives_f64s header.max_values
  rw [h.min_values] at hmins
  rw [h.max_values] at hmaxs
  obtain ⟨r₈, h₈, hrest₈, -⟩ := hmins r₇ _ hrest₇
  obtain ⟨r₉, h₉, hrest₉, -⟩ := hmaxs r₈ _ hrest₈
  obtain ⟨r₁₀, h₁₀, hrest₁₀, -⟩ := gives_u64 _ r₉ _ hrest₉
  obtain ⟨r₁₁, h₁₁, -, -⟩ := gives_u64 _ r₁₀ _ hrest₁₀
  rw [bind_apply, Read.liftE, pure_apply]
  dsimp only
  rw [bind_apply, h₅]
  dsimp only
  rw [bind_apply, h₆]
  dsimp only
  rw [bind_apply, h₇]
  dsimp only
  rw [bind_apply, h₈]
  dsimp only
  rw [bind_apply, h₉]
  dsimp only
  rw [bind_apply, h₁₀]
  dsimp only
  rw [bind_apply, h₁₁]
  dsimp only
  rw [hblock32, toNat_ofNat_offset h.total_point_count, toNat_ofNat_offset h.num_blocks,
    toNat_ofNat_offset h.index_start_offset, toNat_ofNat_offset h.root_node_offset]
  refine ⟨r₁₁, ?_⟩
  rw [pure_apply, ← h.magic, ← h.version, ← h.bytes_per_dim]

theorem open_file_header (h : Fields32 header) {file t : Bytes}
    (hfile : file = header_block header.num_dims header.total_point_count header.num_blocks
      header.block_size header.min_values header.max_values header.index_start_offset
        header.root_node_offset ++ t) :
    open_file file = .ok { header, file } := by
  obtain ⟨r', hread⟩ := gives_header h (r := StructReader.new file) (t := t) hfile
  rw [open_file, hread]

theorem intersect_of_walk {V : Type} [IntersectVisitor V] {file : Bytes} {visitor v : V}
    {r' : StructReader} (hpos : header.total_point_count ≠ 0) (hlen : 0 < file.length)
    (hwalk : intersect_subtree header file.length header.root_node_offset visitor
      (StructReader.new file) = .ok (v, r')) :
    intersect { header, file } visitor = .ok v := by
  obtain ⟨levels, hlevels⟩ := Nat.exists_eq_add_one_of_ne_zero hlen.ne'
  rw [intersect, if_neg hpos]
  by_cases hleaf : header.root_node_offset < header.index_start_offset
  · rw [hlevels, intersect_subtree, if_pos hleaf] at hwalk
    simp only [if_pos hleaf, hwalk]
  · simp only [if_neg hleaf, hwalk]

/-! ## The file of a tree -/

/-- The header of a tree, as it reads back. -/
def BKDFileHeader.of_tree (ctx : BuildContext) (block_size : ℕ) (indices : List ℕ) (cell : Cell) :
    BKDFileHeader :=
  { magic := BKD_MAGIC
    version := BKD_VERSION
    num_dims := ctx.num_dims
    bytes_per_dim := 8
    total_point_count := indices.length
    num_blocks := cell.leaf_count
    block_size
    min_values := fold_values F64.total_min ctx indices (List.replicate ctx.num_dims F64.MAX)
    max_values := fold_values F64.total_max ctx indices (List.replicate ctx.num_dims F64.MIN)
    index_start_offset := index_start ctx cell
    root_node_offset := cell.root_offset ctx }

/-- A file has the tree's header and body first. -/
structure TreeFile (file : Bytes) (ctx : BuildContext) (block_size : ℕ) (indices : List ℕ)
    (cell : Cell) : Prop where
  begins : ∃ t, file = tree_header ctx block_size indices cell ++ (tree_body ctx cell ++ t)
  size : file.length < 2 ^ 64
  num_dims : ctx.num_dims < 2 ^ 32
  block_size : block_size < 2 ^ 32
  count : indices.length < 2 ^ 32

namespace TreeFile

variable {file : Bytes}

theorem length_tree_header (ctx : BuildContext) (block_size : ℕ) (indices : List ℕ) (cell : Cell) :
    (tree_header ctx block_size indices cell).length = header_size ctx.num_dims :=
  length_header_block ((length_fold_values _ _ _ _).trans List.length_replicate)
    ((length_fold_values _ _ _ _).trans List.length_replicate)

theorem length_le (h : TreeFile file ctx block_size indices cell) :
    index_start ctx cell + (index_block (index_start ctx cell) (node_size ctx.num_dims)
      (cell.nodes ctx 0 (header_size ctx.num_dims))).length ≤ file.length := by
  grind [begins, length_tree_header, tree_body, index_start]

theorem stored (h : TreeFile file ctx block_size indices cell)
    (hbuilt : Built sub ctx block_size indices cell) :
    StoredCell file ctx (index_start ctx cell) cell (cell.root_offset ctx) := by
  obtain ⟨t, ht⟩ := h.begins
  have hbody : LiesAt file (header_size ctx.num_dims) (tree_body ctx cell) := by
    refine ⟨t, ?_⟩
    rw [ht, ← length_tree_header ctx block_size indices cell, List.drop_left]
  have hnodes : LiesAt file (index_start ctx cell + 0 * node_size ctx.num_dims)
      (index_block (index_start ctx cell) (node_size ctx.num_dims)
        (cell.nodes ctx 0 (header_size ctx.num_dims))) := by
    rw [Nat.zero_mul, Nat.add_zero]
    exact hbody.right
  have hstored := stored_of_layout hbuilt 0 (header_size ctx.num_dims) hbody.left hnodes le_rfl
  have hoffset : cell.offset (index_start ctx cell) (node_size ctx.num_dims) 0
      (header_size ctx.num_dims) = cell.root_offset ctx := by
    rcases cell with _ | _
    · rfl
    · exact (congrArg _ (Nat.zero_mul _)).trans (Nat.add_zero _)
  rw [hoffset] at hstored
  exact hstored

theorem open_eq (h : TreeFile file ctx block_size indices cell)
    (hbuilt : Built sub ctx block_size indices cell) :
    open_file file = .ok { header := .of_tree ctx block_size indices cell, file } := by
  have hlen := h.length_le
  have hroot := (h.stored hbuilt).lt_length
  have hleaves := cell.leaf_count_le_length ctx
  have hstart : index_start ctx cell = header_size ctx.num_dims + (cell.leaves ctx).length := rfl
  have hsize := h.size
  have hcount := h.count
  obtain ⟨t, ht⟩ := h.begins
  refine open_file_header (t := tree_body ctx cell ++ t) ?_ ht
  exact {
    magic := rfl
    version := rfl
    bytes_per_dim := rfl
    num_dims := h.num_dims
    block_size := h.block_size
    total_point_count := hcount.trans (by decide)
    num_blocks := by show cell.leaf_count < 2 ^ 64; omega
    index_start_offset := by show index_start ctx cell < 2 ^ 64; omega
    root_node_offset := hroot.trans hsize
    min_values := (length_fold_values _ _ _ _).trans List.length_replicate
    max_values := (length_fold_values _ _ _ _).trans List.length_replicate }

/-- **A walk of the file is a walk of the tree.** -/
theorem intersect_eq {V : Type} [IntersectVisitor V]
    (h : TreeFile file ctx block_size indices cell)
    (hbuilt : Built sub ctx block_size indices cell) (hdims : 0 < ctx.num_dims)
    (hnumbers : Numbers ctx indices) (visitor : V) :
    intersect { header := .of_tree ctx block_size indices cell, file } visitor =
      .ok (cell.intersect ctx visitor) := by
  have hpos : indices.length ≠ 0 := fun hzero =>
    hbuilt.ne_nil (List.length_eq_zero_iff.1 hzero)
  have hheader : HeaderOf (.of_tree ctx block_size indices cell) ctx block_size
      (index_start ctx cell) := ⟨rfl, rfl, rfl⟩
  have hcounted : CountedPoints (.of_tree ctx block_size indices cell) indices := ⟨le_rfl, h.count⟩
  have hlevels : cell.leaf_count ≤ file.length := by
    have hlen := h.length_le
    have hleaves := cell.leaf_count_le_length ctx
    rw [index_start] at hlen
    omega
  obtain ⟨r', hwalk, -⟩ := intersect_subtree_stored hheader h.size hdims hbuilt hcounted hnumbers
    file.length (cell.root_offset ctx) visitor (StructReader.new file) hlevels (h.stored hbuilt) rfl
  exact intersect_of_walk hpos (lt_of_lt_of_le cell.leaf_count_pos hlevels) hwalk

end TreeFile

/-! ## What a file gives -/

/-- A reader finds the points, and its value range is about them. -/
structure Searches (ctx : BuildContext) (indices : List ℕ) (reader : BKDReader) : Prop where
  intersect : ∀ v : RangeQueryVisitor, ∃ v', reader.intersect v = .ok v' ∧
    Finds v v' (Taken ctx v indices)
  range_none : indices = [] → ∀ d, reader.value_range d = none
  range_some : indices ≠ [] → ∀ d < ctx.num_dims, ∃ min max,
    reader.value_range d = some (min, max, indices.length) ∧
      ∀ i ∈ indices, min.key ≤ (ctx.value i d).key ∧ (ctx.value i d).key ≤ max.key

theorem find_nan_eq_none : find_nan ctx indices = none ↔ Numbers ctx indices := by
  rw [find_nan, List.findSome?_eq_none_iff]
  have hpoint : ∀ entry : ℕ × ℕ, (((List.range ctx.num_dims).find? fun d =>
      (ctx.value entry.1 d).is_nan).map fun d => (entry.2, d)) = none ↔
        ∀ d < ctx.num_dims, (ctx.value entry.1 d).is_nan = false := by simp
  constructor
  · intro h i hi
    obtain ⟨k, hk, hget⟩ := List.mem_iff_getElem.1 hi
    exact (hpoint (i, k)).1 (h (i, k) (List.mem_zipIdx_iff_getElem?.2
      (List.getElem?_eq_some_iff.2 ⟨hk, hget⟩)))
  · intro h entry hentry
    have hget := List.mem_zipIdx_iff_getElem?.1 hentry
    exact (hpoint entry).2 (h entry.1 (List.mem_of_getElem? hget))

theorem fold_values_bounds {d : ℕ} (hd : d < ctx.num_dims) (v w : F64) :
    ∃ min max,
      (fold_values F64.total_min ctx indices (List.replicate ctx.num_dims v))[d]? = some min ∧
      (fold_values F64.total_max ctx indices (List.replicate ctx.num_dims w))[d]? = some max ∧
      ∀ i ∈ indices, min.key ≤ (ctx.value i d).key ∧ (ctx.value i d).key ≤ max.key := by
  refine ⟨(indices.map (ctx.value · d)).foldl F64.total_min v,
    (indices.map (ctx.value · d)).foldl F64.total_max w, ?_, ?_, fun i hi => ?_⟩
  · simp [fold_values, hd]
  · simp [fold_values, hd]
  · have hmem : ctx.value i d ∈ indices.map (ctx.value · d) := List.mem_map.2 ⟨i, hi, rfl⟩
    exact ⟨F64.foldl_total_min _ _ _ hmem, F64.foldl_total_max _ _ _ hmem⟩

theorem TreeFile.searches {file : Bytes} (h : TreeFile file ctx block_size indices cell)
    (hbuilt : Built sub ctx block_size indices cell) (hdims : 0 < ctx.num_dims)
    (hnumbers : Numbers ctx indices) :
    Searches ctx indices { header := .of_tree ctx block_size indices cell, file } where
  intersect v :=
    ⟨_, h.intersect_eq hbuilt hdims hnumbers v, finds_intersect hdims hbuilt hnumbers v⟩
  range_none hnil := absurd hnil hbuilt.ne_nil
  range_some hne d hd := by
    obtain ⟨min, max, hmin, hmax, hbounds⟩ := @fold_values_bounds ctx indices d hd F64.MAX F64.MIN
    refine ⟨min, max, ?_, hbounds⟩
    have hpos : ¬ indices.length = 0 := fun hzero => hne (List.length_eq_zero_iff.1 hzero)
    rw [value_range]
    simp only [BKDFileHeader.of_tree, hmin, hmax, Option.bind_some, Option.map_some, hpos,
      if_false]

/-- The header of a tree without points. -/
def BKDFileHeader.of_none (num_dims block_size : ℕ) : BKDFileHeader :=
  { magic := BKD_MAGIC
    version := BKD_VERSION
    num_dims
    bytes_per_dim := 8
    total_point_count := 0
    num_blocks := 0
    block_size
    min_values := List.replicate num_dims F64.MAX
    max_values := List.replicate num_dims F64.MIN
    index_start_offset := 0
    root_node_offset := 0 }

theorem write_permuted_nil (sub : F64 → F64 → F64) (points : List F64) (doc_ids : List UInt64)
    (block_size num_dims : ℕ) :
    ∃ w, write_permuted sub points doc_ids [] (BKDWriter.new block_size num_dims) = .ok ((), w) ∧
      w.writer = StructWriter.new.put (header_block num_dims 0 0 block_size
        (List.replicate num_dims F64.MAX) (List.replicate num_dims F64.MIN) 0 0 ++ []) := by
  have hreserve : Build.write (StructWriter.reserve_header (header_size num_dims))
      (BKDWriter.new block_size num_dims) = .ok ((), { BKDWriter.new block_size num_dims with
        writer := StructWriter.reserved (header_size num_dims) }) := by
    rw [Build.write, bind_apply, get_apply]
    dsimp only
    rw [BKDWriter.new, StructWriter.reserve_header_new]
    rfl
  rw [write_permuted, bind_apply, get_apply]
  dsimp only
  rw [if_pos rfl, bind_apply]
  erw [hreserve]
  exact ⟨_, @write_header_eq _ [] _ _ _ (StructWriter.put_nil _).symm List.length_replicate
    List.length_replicate, rfl⟩

theorem searches_none {num_dims block_size : ℕ} {file : Bytes} :
    Searches ctx [] { header := .of_none num_dims block_size, file } where
  intersect v := ⟨v, rfl, .none fun _ ⟨_, hi, _⟩ => absurd hi List.not_mem_nil⟩
  range_none _ _ := rfl
  range_some hne := absurd rfl hne

/-- **What is written of some points searches them.** -/
theorem write_permuted_searches (sub : F64 → F64 → F64) {points : List F64} {doc_ids : List UInt64}
    {num_dims block_size : ℕ} (hblock : 0 < block_size) (hblock32 : block_size < 2 ^ 32)
    (hdims : 0 < num_dims) (hdims32 : num_dims < 2 ^ 32) (hcount : indices.length < 2 ^ 32)
    (hnumbers : Numbers { points, doc_ids, num_dims } indices) (crc32 : Bytes → UInt32) :
    ∃ w file, write_permuted sub points doc_ids indices (BKDWriter.new block_size num_dims) =
        .ok ((), w) ∧ w.finish crc32 = .ok file ∧
      (file.length < 2 ^ 64 → ∃ reader, open_file file = .ok reader ∧
        Searches { points, doc_ids, num_dims } indices reader) := by
  by_cases hne : indices = []
  · subst hne
    obtain ⟨w, hwrite, hw⟩ := write_permuted_nil sub points doc_ids block_size num_dims
    rw [List.append_nil] at hw
    refine ⟨w, _, hwrite, by rw [finish, hw, StructWriter.close_new_put], fun hsize => ?_⟩
    have hzero : 0 < 2 ^ 64 := by decide
    have hfields : Fields32 (.of_none num_dims block_size) :=
      { magic := rfl, version := rfl, bytes_per_dim := rfl, num_dims := hdims32
        block_size := hblock32, total_point_count := hzero, num_blocks := hzero
        index_start_offset := hzero, root_node_offset := hzero
        min_values := List.length_replicate, max_values := List.length_replicate }
    exact ⟨_, open_file_header hfields rfl, searches_none⟩
  · obtain ⟨cell, hbuilt⟩ := exists_built sub { points, doc_ids, num_dims } hblock indices.length
      indices le_rfl hne
    obtain ⟨w, hwrite, hw⟩ := write_permuted_eq (find_nan_eq_none.2 hnumbers) hbuilt
    refine ⟨w, _, hwrite, by rw [finish, hw, StructWriter.close_new_put], fun hsize => ?_⟩
    have hfile : TreeFile _ { points, doc_ids, num_dims } block_size indices cell :=
      { begins := ⟨_, List.append_assoc _ _ _⟩, size := hsize, num_dims := hdims32
        block_size := hblock32, count := hcount }
    exact ⟨_, hfile.open_eq hbuilt, hfile.searches hbuilt hdims hnumbers⟩

end Laurus
