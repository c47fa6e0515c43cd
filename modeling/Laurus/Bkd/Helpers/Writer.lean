import Laurus.Bkd.Model.Writer
import Laurus.Storage.Helpers.Items

/-!
# What the builder leaves

A tree is built of cells: a leaf holds points, and a node splits its points
between two cells (`Built`). The builder writes the blocks of the leaves in
order and keeps the nodes, each before those of its halves
(`build_subtree_eq`).
-/

namespace Laurus

open Laurus.Comp StructWriter

/-- A subtree, with its bounds and what a node is split by. -/
inductive Cell
  | leaf (min max : List F64) (indices : List ℕ)
  | node (split_dim : ℕ) (split_value : F64) (min max : List F64) (left right : Cell)

namespace Cell

def min : Cell → List F64
  | leaf min _ _ => min
  | node _ _ min _ _ _ => min

def max : Cell → List F64
  | leaf _ max _ => max
  | node _ _ _ max _ _ => max

/-- The nodes of a cell. -/
def size : Cell → ℕ
  | leaf .. => 0
  | node _ _ _ _ left right => 1 + left.size + right.size

/-- The leaves of a cell. -/
def leaf_count : Cell → ℕ
  | leaf .. => 1
  | node _ _ _ _ left right => left.leaf_count + right.leaf_count

/-- The index of a cell, where it is a node and so many came before it. -/
def node_idx (base : ℕ) : Cell → Option ℕ
  | leaf .. => none
  | node .. => some base

end Cell

/-! ## Bytes -/

/-- The bytes of some doubles. -/
def f64_bytes (vs : List F64) : Bytes := vs.flatMap fun v => Bytes.ofNatLE 8 v.bits.toNat

@[simp] theorem length_f64_bytes (vs : List F64) : (f64_bytes vs).length = 8 * vs.length := by
  induction vs with
  | nil => rfl
  | cons v vs ih =>
      rw [f64_bytes, List.flatMap_cons, List.length_append, Bytes.length_ofNatLE,
        List.length_cons] at *
      rw [ih]
      ring

section Leaf

variable (ctx : BuildContext) (indices : List ℕ) (leaf_min leaf_max : List F64)

/-- The order that a leaf has its points in. -/
def leaf_order : List ℕ := indices.insertionSort fun a b => ctx.doc_id a ≤ ctx.doc_id b

/-- The documents of a leaf. -/
def leaf_docs : List UInt64 := (leaf_order ctx indices).map ctx.doc_id

/-- The bits of a leaf's gaps. -/
def leaf_doc_bits : ℕ := bits_needed (max_delta (leaf_docs ctx indices))

/-- The column of a dimension. -/
def dim_column (d : ℕ) : List UInt64 :=
  (leaf_order ctx indices).map fun i =>
    f64_to_sortable_u64 (ctx.value i d) -
      (dim_point_bits (leaf_min.getD d default) (leaf_max.getD d default)).1

/-- The bytes of a dimension. -/
def dim_bytes (d : ℕ) : Bytes :=
  let bits := (dim_point_bits (leaf_min.getD d default) (leaf_max.getD d default)).2
  if bits ≠ 0 then pack_column (dim_column ctx indices leaf_min leaf_max d) bits else []

/-- The bytes of a leaf's documents. -/
def doc_bytes : Bytes :=
  if 0 < leaf_doc_bits ctx indices then
    pack_column (doc_id_deltas ((leaf_docs ctx indices).headD 0) (leaf_docs ctx indices))
      (leaf_doc_bits ctx indices)
  else []

/-- The fields before the columns. -/
def leaf_fields : Bytes :=
  Bytes.ofNatLE 4 (UInt32.ofNat indices.length).toNat ++ (f64_bytes leaf_min ++
    (f64_bytes leaf_max ++ (Bytes.ofNatLE 8 ((leaf_docs ctx indices).headD 0).toNat ++
      [UInt8.ofNat (leaf_doc_bits ctx indices)])))

/-- The bytes of the columns. -/
def leaf_columns : Bytes :=
  (List.range ctx.num_dims).flatMap (dim_bytes ctx indices leaf_min leaf_max)

/-- The bytes of a leaf. -/
def leaf_block : Bytes :=
  leaf_fields ctx indices leaf_min leaf_max ++ (leaf_columns ctx indices leaf_min leaf_max ++
    doc_bytes ctx indices)

end Leaf

/-- The bytes of a node, whose children are at the offsets. -/
def node_block (node : IndexNode) (left_offset right_offset : ℕ) : Bytes :=
  Bytes.ofNatLE 4 (UInt32.ofNat node.split_dim).toNat ++
    (Bytes.ofNatLE 8 node.split_value.bits.toNat ++ (f64_bytes node.left_min ++
      (f64_bytes node.left_max ++ (f64_bytes node.right_min ++ (f64_bytes node.right_max ++
        (Bytes.ofNatLE 8 (UInt64.ofNat left_offset).toNat ++
          Bytes.ofNatLE 8 (UInt64.ofNat right_offset).toNat))))))

namespace Cell

variable (ctx : BuildContext)

/-- The blocks of a cell's leaves. -/
def leaves : Cell → Bytes
  | leaf min max indices => leaf_block ctx indices min max
  | node _ _ _ _ left right => left.leaves ++ right.leaves

/-- The nodes of a cell, where so many came before and its leaves begin at
`pos`. -/
def nodes (base pos : ℕ) : Cell → List IndexNode
  | leaf .. => []
  | node split_dim split_value _ _ left right =>
    { split_dim, split_value
      left_min := left.min
      left_max := left.max
      right_min := right.min
      right_max := right.max
      left_offset := if left.node_idx (base + 1) = none then pos else 0
      right_offset :=
        if right.node_idx (base + 1 + left.size) = none then pos + (left.leaves ctx).length else 0
      left_child_idx := left.node_idx (base + 1)
      right_child_idx := right.node_idx (base + 1 + left.size) } ::
    (left.nodes (base + 1) pos ++
      right.nodes (base + 1 + left.size) (pos + (left.leaves ctx).length))

theorem length_nodes (cell : Cell) (base pos : ℕ) :
    (cell.nodes ctx base pos).length = cell.size := by
  induction cell generalizing base pos with
  | leaf min max indices => rfl
  | node _ _ _ _ left right ihl ihr =>
      rw [nodes, List.length_cons, List.length_append, ihl, ihr, size]
      omega

end Cell

/-! ## Writes -/

theorem StructWriter.Puts.forM {α : Type} {f : α → Write Unit} {g : α → Bytes}
    (h : ∀ a, Puts (f a) (g a)) (as : List α) : Puts (as.forM f) (as.flatMap g) := by
  induction as with
  | nil => exact Puts.pure
  | cons a as ih => exact (h a).bind ih

theorem puts_f64 (v : F64) : Puts (write_f64 v.bits) (Bytes.ofNatLE 8 v.bits.toNat) := Puts.raw _

theorem puts_f64s (vs : List F64) : Puts (write_f64s vs) (f64_bytes vs) := Puts.forM puts_f64 vs

theorem puts_ite {c : Prop} [Decidable c] {value : Bytes} :
    Puts (if c then write_raw value else pure ()) (if c then value else []) := by
  split
  · exact Puts.raw value
  · exact Puts.pure

/-- **The bytes of a leaf.** -/
theorem puts_leaf_block (ctx : BuildContext) (indices : List ℕ) (leaf_min leaf_max : List F64) :
    Puts (write_leaf_block ctx indices leaf_min leaf_max)
      (leaf_block ctx indices leaf_min leaf_max) := by
  have hfields : leaf_block ctx indices leaf_min leaf_max =
      Bytes.ofNatLE 4 (UInt32.ofNat indices.length).toNat ++ (f64_bytes leaf_min ++
        (f64_bytes leaf_max ++ (Bytes.ofNatLE 8 ((leaf_docs ctx indices).headD 0).toNat ++
          ([UInt8.ofNat (leaf_doc_bits ctx indices)] ++
            (leaf_columns ctx indices leaf_min leaf_max ++ doc_bytes ctx indices))))) := by
    simp only [leaf_block, leaf_fields, List.append_assoc]
  rw [hfields]
  exact (Puts.raw _).bind ((puts_f64s leaf_min).bind ((puts_f64s leaf_max).bind
    ((Puts.raw _).bind ((Puts.raw _).bind
      ((Puts.forM (fun d => puts_ite) (List.range ctx.num_dims)).bind puts_ite)))))

/-! ## The cells of a build -/

section Build

variable (sub : F64 → F64 → F64) (ctx : BuildContext) (block_size : ℕ)

/-- What `build_subtree` makes of some points. -/
inductive Built : List ℕ → Cell → Prop
  /-- Few points are a leaf. -/
  | leaf {indices : List ℕ} (hne : indices ≠ []) (hfits : indices.length ≤ block_size) :
      Built indices
        (.leaf (compute_aabb ctx indices).1 (compute_aabb ctx indices).2 indices)
  /-- More are split in the middle of the order of one coordinate. -/
  | node {indices sorted : List ℕ} {split_dim : ℕ} {left right : Cell}
      (hmany : block_size < indices.length)
      (hdim : split_dim = widest_axis sub (compute_aabb ctx indices).1 (compute_aabb ctx indices).2)
      (hsorted : sorted = indices.insertionSort fun a b =>
        (ctx.value a split_dim).key ≤ (ctx.value b split_dim).key)
      (hleft : Built (sorted.take (indices.length / 2)) left)
      (hright : Built (sorted.drop (indices.length / 2)) right) :
      Built indices
        (.node split_dim (ctx.value ((sorted.drop (indices.length / 2)).headD 0) split_dim)
          (compute_aabb ctx indices).1 (compute_aabb ctx indices).2 left right)

variable {sub ctx block_size} {indices : List ℕ} {cell : Cell}

theorem Built.ne_nil (h : Built sub ctx block_size indices cell) : indices ≠ [] := by
  rcases h with ⟨hne, -⟩ | ⟨hmany, -, -, -, -⟩
  · exact hne
  grind

/-- Some points are built of, in blocks of one or more. -/
theorem exists_built (sub : F64 → F64 → F64) (ctx : BuildContext) (hblock : 0 < block_size) :
    ∀ (n : ℕ) (indices : List ℕ), indices.length ≤ n → indices ≠ [] →
      ∃ cell, Built sub ctx block_size indices cell := by
  intro n
  induction n with
  | zero =>
      simp
  | succ n ih =>
      intro indices hlen hne
      by_cases hfits : indices.length ≤ block_size
      · exact ⟨_, .leaf hne hfits⟩
      · set split_dim := widest_axis sub (compute_aabb ctx indices).1 (compute_aabb ctx indices).2
          with hdim
        set sorted := indices.insertionSort (fun a b =>
          (ctx.value a split_dim).key ≤ (ctx.value b split_dim).key) with hsorted
        have hslen : sorted.length = indices.length := List.length_insertionSort _ _
        -- the halves are shorter, and neither is empty
        obtain ⟨left, hleft⟩ := ih (sorted.take (indices.length / 2))
          (by rw [List.length_take]; omega)
          (List.ne_nil_of_length_pos (by rw [List.length_take]; omega))
        obtain ⟨right, hright⟩ := ih (sorted.drop (indices.length / 2))
          (by rw [List.length_drop]; omega)
          (List.ne_nil_of_length_pos (by rw [List.length_drop]; omega))
        exact ⟨_, .node (not_le.1 hfits) hdim hsorted hleft hright⟩

theorem Build.write_puts {p : Write Unit} {bytes : Bytes} (hp : Puts p bytes) {w : BKDWriter}
    (hw : Within w.writer) :
    Build.write p w = .ok ((), { w with writer := w.writer.put bytes }) := by
  rw [Build.write, bind_apply, get_apply]
  dsimp only
  rw [hp _ hw]
  rfl

/-- The builder after the cell. -/
def BKDWriter.after (w : BKDWriter) (ctx : BuildContext) (cell : Cell) : BKDWriter :=
  { w with
    writer := w.writer.put (cell.leaves ctx)
    num_blocks := w.num_blocks + cell.leaf_count
    index_nodes := w.index_nodes ++ cell.nodes ctx w.index_nodes.length w.writer.position }

theorem set_reserved {α : Type} (xs ys : List α) (slot x : α) :
    (xs ++ ([slot] ++ ys)).set xs.length x = xs ++ x :: ys := by simp

open BKDWriter in
/-- **What building a subtree does**: the leaves are written and the nodes kept. -/
theorem build_subtree_eq (h : Built sub ctx block_size indices cell) :
    ∀ (n : ℕ) (w : BKDWriter), indices.length ≤ n → w.block_size = block_size →
      Within w.writer → build_subtree sub ctx n indices w =
        .ok ({ node_idx := cell.node_idx w.index_nodes.length, min := cell.min, max := cell.max },
          w.after ctx cell) := by
  induction h with
  | leaf hne hfits =>
      rintro (_ | n) w hlen rfl hw
      · grind
      rw [build_subtree, if_neg hne]
      dsimp only
      rw [bind_apply, get_apply]
      dsimp only
      rw [if_pos hfits, bind_apply, Build.write_puts (puts_leaf_block ctx _ _ _) hw]
      simp only [BKDWriter.after, Cell.nodes, List.append_nil]
      rfl
  | @node indices sorted split_dim left right hmany hdim hsorted hleft hright ihl ihr =>
      rintro (_ | n) w hlen rfl hw
      · omega
      have hne : indices ≠ [] := by grind
      have hslen : sorted.length = indices.length := by rw [hsorted, List.length_insertionSort]
      have hpos : 0 < (sorted.take (indices.length / 2)).length :=
        List.length_pos_iff.2 hleft.ne_nil
      rw [List.length_take] at hpos
      rw [build_subtree, if_neg hne]
      rcases haabb : compute_aabb ctx indices with ⟨min, max⟩
      rw [haabb] at hdim
      dsimp only at hdim ⊢
      rw [bind_apply, get_apply]
      dsimp only
      rw [if_neg (not_le.2 hmany), ← hdim, ← hsorted, hslen, bind_apply, set_apply]
      dsimp only
      generalize ctx.value ((sorted.drop (indices.length / 2)).headD 0) split_dim = split_value
      have hl := ihl n
        { w with
          index_nodes := w.index_nodes ++
            [{ split_dim, split_value, left_min := [], left_max := [], right_min := []
               right_max := [], left_offset := 0, right_offset := 0, left_child_idx := none
               right_child_idx := none }] }
        (by rw [List.length_take]; omega) rfl hw
      have hr := ihr n (BKDWriter.after
        { w with
          index_nodes := w.index_nodes ++
            [{ split_dim, split_value, left_min := [], left_max := [], right_min := []
               right_max := [], left_offset := 0, right_offset := 0, left_child_idx := none
               right_child_idx := none }] } ctx left)
        (by rw [List.length_drop]; omega) rfl (hw.put _)
      rw [bind_apply, hl]
      dsimp only
      rw [bind_apply, get_apply]
      dsimp only
      rw [bind_apply, hr]
      -- the slot that was reserved is filled
      simp only [BKDWriter.after, List.length_append, List.length_singleton, Cell.length_nodes,
        Cell.nodes, Cell.leaves, Cell.leaf_count, put_put hw, Nat.add_assoc, List.append_assoc]
      change Except.ok (_, { w with
        writer := _
        num_blocks := _
        index_nodes := List.set _ _ _ }) = _
      rw [set_reserved]
      rfl

end Build

/-! ## The file of a build -/

open BKDWriter

/-- The bytes of the index. -/
def index_block (start_pos node_size : ℕ) (nodes : List IndexNode) : Bytes :=
  nodes.flatMap fun node =>
    node_block node (child_offset start_pos node_size node.left_offset node.left_child_idx)
      (child_offset start_pos node_size node.right_offset node.right_child_idx)

theorem puts_node (start_pos node_size : ℕ) (node : IndexNode) :
    Puts (write_node start_pos node_size node)
      (node_block node (child_offset start_pos node_size node.left_offset node.left_child_idx)
        (child_offset start_pos node_size node.right_offset node.right_child_idx)) :=
  (Puts.raw _).bind ((Puts.raw _).bind ((puts_f64s _).bind ((puts_f64s _).bind
    ((puts_f64s _).bind ((puts_f64s _).bind ((Puts.raw _).bind (Puts.raw _)))))))

/-- The bytes of the header. -/
def header_block (num_dims total_count num_blocks block_size : ℕ) (min_values max_values : List F64)
    (index_start root_offset : ℕ) : Bytes :=
  Bytes.ofNatLE 4 BKD_MAGIC.toNat ++ (Bytes.ofNatLE 4 BKD_VERSION.toNat ++
    (Bytes.ofNatLE 4 (UInt32.ofNat num_dims).toNat ++ (Bytes.ofNatLE 4 (8 : UInt32).toNat ++
      (Bytes.ofNatLE 8 (UInt64.ofNat total_count).toNat ++
        (Bytes.ofNatLE 8 (UInt64.ofNat num_blocks).toNat ++
          (Bytes.ofNatLE 4 (UInt32.ofNat block_size).toNat ++ (f64_bytes min_values ++
            (f64_bytes max_values ++ (Bytes.ofNatLE 8 (UInt64.ofNat index_start).toNat ++
              Bytes.ofNatLE 8 (UInt64.ofNat root_offset).toNat)))))))))

theorem puts_header (w : BKDWriter) (total_count index_start root_offset : ℕ) :
    Puts (w.header_fields total_count index_start root_offset)
      (header_block w.num_dims total_count w.num_blocks w.block_size w.min_values w.max_values
        index_start root_offset) :=
  (Puts.raw _).bind ((Puts.raw _).bind ((Puts.raw _).bind ((Puts.raw _).bind
    ((Puts.raw _).bind ((Puts.raw _).bind ((Puts.raw _).bind ((puts_f64s _).bind
      ((puts_f64s _).bind ((Puts.raw _).bind (Puts.raw _))))))))))

theorem length_header_block {num_dims total_count num_blocks block_size index_start root_offset : ℕ}
    {min_values max_values : List F64} (hmin : min_values.length = num_dims)
    (hmax : max_values.length = num_dims) :
    (header_block num_dims total_count num_blocks block_size min_values max_values index_start
      root_offset).length = header_size num_dims := by
  simp only [header_block, List.length_append, Bytes.length_ofNatLE, length_f64_bytes, hmin, hmax,
    header_size]
  ring

theorem write_header_eq {w : BKDWriter} {body : Bytes} {total_count index_start root_offset : ℕ}
    (hw : w.writer = (reserved (header_size w.num_dims)).put body)
    (hmin : w.min_values.length = w.num_dims) (hmax : w.max_values.length = w.num_dims) :
    write_header total_count index_start root_offset w = .ok ((), { w with
      writer := StructWriter.new.put (header_block w.num_dims total_count w.num_blocks w.block_size
        w.min_values w.max_values index_start root_offset ++ body) }) := by
  rw [write_header, bind_apply, get_apply]
  dsimp only
  rw [Build.write, bind_apply, get_apply]
  dsimp only
  rw [hw, fill_reserved (puts_header w total_count index_start root_offset)
    (length_header_block hmin hmax)]
  rfl

section File

variable {sub : F64 → F64 → F64} {points : List F64} {doc_ids : List UInt64}
  {num_dims block_size : ℕ} {indices : List ℕ} {cell : Cell}

/-- Where the index begins. -/
def index_start (ctx : BuildContext) (cell : Cell) : ℕ :=
  header_size ctx.num_dims + (cell.leaves ctx).length

/-- Where the root is. -/
def Cell.root_offset (ctx : BuildContext) (cell : Cell) : ℕ :=
  if cell.node_idx 0 = none then header_size ctx.num_dims else index_start ctx cell

/-- The header of a tree. -/
def tree_header (ctx : BuildContext) (block_size : ℕ) (indices : List ℕ) (cell : Cell) : Bytes :=
  header_block ctx.num_dims indices.length cell.leaf_count block_size
    (fold_values F64.total_min ctx indices (List.replicate ctx.num_dims F64.MAX))
    (fold_values F64.total_max ctx indices (List.replicate ctx.num_dims F64.MIN))
    (index_start ctx cell) (cell.root_offset ctx)

/-- What a tree has after its header. -/
def tree_body (ctx : BuildContext) (cell : Cell) : Bytes :=
  cell.leaves ctx ++ index_block (index_start ctx cell) (node_size ctx.num_dims)
    (cell.nodes ctx 0 (header_size ctx.num_dims))

theorem length_fold_values (op : F64 → F64 → F64) (ctx : BuildContext) (indices : List ℕ)
    (values : List F64) : (fold_values op ctx indices values).length = values.length := by
  rw [fold_values, List.length_map, List.length_zipIdx]

theorem write_index_eq {w : BKDWriter} (hw : Within w.writer) :
    write_index w = .ok ((), { w with
      writer := w.writer.put (index_block w.writer.position (node_size w.num_dims)
        w.index_nodes) }) := by
  exact Build.write_puts (Puts.forM (puts_node _ _) w.index_nodes) hw

/-- The builder that has its header reserved. -/
def BKDWriter.started (ctx : BuildContext) (block_size : ℕ) (indices : List ℕ) : BKDWriter :=
  { BKDWriter.new block_size ctx.num_dims with
    writer := reserved (header_size ctx.num_dims)
    min_values := fold_values F64.total_min ctx indices (List.replicate ctx.num_dims F64.MAX)
    max_values := fold_values F64.total_max ctx indices (List.replicate ctx.num_dims F64.MIN) }

theorem write_header_after (ctx : BuildContext) (block_size : ℕ) (indices : List ℕ) (cell : Cell)
    (root_offset : ℕ) (hroot : root_offset = cell.root_offset ctx) :
    ∃ w, write_header indices.length
        ((started ctx block_size indices).after ctx cell).writer.position root_offset
        { (started ctx block_size indices).after ctx cell with
          writer := ((started ctx block_size indices).after ctx cell).writer.put
            (index_block ((started ctx block_size indices).after ctx cell).writer.position
              (node_size ((started ctx block_size indices).after ctx cell).num_dims)
              ((started ctx block_size indices).after ctx cell).index_nodes) } = .ok ((), w) ∧
      w.writer = StructWriter.new.put
        (tree_header ctx block_size indices cell ++ tree_body ctx cell) := by
  subst hroot
  refine ⟨_, @write_header_eq _ (tree_body ctx cell) _ _ _ ?_ ?_ ?_, ?_⟩
  · exact put_put (within_reserved _) _ _
  · exact (length_fold_values _ _ _ _).trans List.length_replicate
  · exact (length_fold_values _ _ _ _).trans List.length_replicate
  · have hcount : ((started ctx block_size indices).after ctx cell).num_blocks = cell.leaf_count :=
      Nat.zero_add _
    dsimp only
    rw [hcount]
    rfl

/-- **The file of a tree.** -/
theorem write_permuted_eq (hnan : find_nan { points, doc_ids, num_dims } indices = none)
    (h : Built sub { points, doc_ids, num_dims } block_size indices cell) :
    ∃ w, write_permuted sub points doc_ids indices (BKDWriter.new block_size num_dims) =
        .ok ((), w) ∧
      w.writer = StructWriter.new.put
        (tree_header { points, doc_ids, num_dims } block_size indices cell ++
          tree_body { points, doc_ids, num_dims } cell) := by
  have hreserve : Build.write (reserve_header (header_size num_dims))
      { BKDWriter.new block_size num_dims with
        min_values := fold_values F64.total_min { points, doc_ids, num_dims } indices
          (List.replicate num_dims F64.MAX)
        max_values := fold_values F64.total_max { points, doc_ids, num_dims } indices
          (List.replicate num_dims F64.MIN) } =
      .ok ((), started { points, doc_ids, num_dims } block_size indices) := by
    rw [Build.write, bind_apply, get_apply]
    dsimp only
    rw [BKDWriter.new, reserve_header_new]
    rfl
  rw [write_permuted, bind_apply, get_apply]
  dsimp only
  rw [show (BKDWriter.new block_size num_dims).num_dims = num_dims from rfl, if_neg h.ne_nil,
    hnan]
  dsimp only
  rw [bind_apply, set_apply]
  dsimp only
  rw [bind_apply]
  erw [hreserve]
  dsimp only
  rw [bind_apply, build_subtree_eq h indices.length 
    (started { points, doc_ids, num_dims } block_size indices) le_rfl rfl (within_reserved _)]
  dsimp only
  rw [bind_apply, get_apply]
  dsimp only
  rw [bind_apply, write_index_eq ((within_reserved _).put _)]
  refine write_header_after _ block_size indices cell _ ?_
  rcases cell with _ | _
  · rfl
  · exact (congrArg _ (Nat.zero_mul (node_size num_dims))).trans (Nat.add_zero _)

end File

end Laurus
