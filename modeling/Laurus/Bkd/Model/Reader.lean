import Laurus.Bkd.Model.Visitor
import Laurus.Bkd.Model.Writer
import Laurus.Common.Unfolding
import Laurus.Storage.Model.Structured

/-!
# Reading a tree (`BKDReader`)

A reader has its file's bytes. A subtree is walked for so many levels at
most, and one that goes deeper ends the stack; the scratch buffer is the
columns that are decoded into it.
-/

namespace Laurus

/-- `BKDFileHeader`. -/
structure BKDFileHeader where
  magic : UInt32
  version : UInt32
  num_dims : ℕ
  bytes_per_dim : UInt32
  total_point_count : ℕ
  num_blocks : ℕ
  block_size : ℕ
  min_values : List F64
  max_values : List F64
  index_start_offset : ℕ
  root_node_offset : ℕ
  deriving DecidableEq, Repr

/-- `BKDReader`. -/
structure BKDReader where
  header : BKDFileHeader
  file : Bytes
  deriving DecidableEq, Repr

/-- `LeafHeader`. -/
structure LeafHeader where
  count : ℕ
  leaf_aabb : AABB
  doc_id_base : UInt64
  doc_id_bits : ℕ
  point_base : List UInt64
  point_bits : List ℕ
  point_section_lens : List ℕ
  doc_id_section_len : ℕ

/-- What a closure over a borrowed slice returns. -/
def Read.lift {α : Type} : Except Fault α → Read α
  | .ok a => pure a
  | .error e => throw e

/-- The `read_f64` of so many doubles. -/
def read_f64s : ℕ → Read (List F64)
  | 0 => return []
  | count + 1 => do
    let v ← StructReader.read_f64
    let vs ← read_f64s count
    return ⟨v⟩ :: vs

/-- Reading bits from a slice. -/
def BitRead.run {α : Type} (p : BitRead α) (raw : Bytes) : Except Fault α :=
  match p (BitReader.new raw) with
  | .ok (a, _) => .ok a
  | .error e => .error e

namespace BKDReader

/-- A number as `{:x}` prints it. -/
def hex (n : ℕ) : String := String.ofList (Nat.toDigits 16 n)

/-- The reads of `open`. -/
def read_header : Read BKDFileHeader := do
  let magic ← StructReader.read_u32
  if magic ≠ BKD_MAGIC then
    throw (Fault.error (LaurusError.storage s!"Invalid BKD magic: {hex magic.toNat}"))
  let version ← StructReader.read_u32
  if version ≠ BKD_VERSION then
    throw (Fault.error (LaurusError.storage
      (s!"Unsupported BKD version: {version} (expected {BKD_VERSION}). Pre-release format " ++
        "changes do not support older revisions; rebuild the index.")))
  let num_dims ← StructReader.read_u32
  let bytes_per_dim ← StructReader.read_u32
  if bytes_per_dim ≠ 8 then
    throw (Fault.error (LaurusError.storage
      s!"Unsupported BKD bytes_per_dim: {bytes_per_dim} (expected 8) — segment is corrupted"))
  let r ← get
  let num_dims ← Read.liftE (checked_capacity_u64 num_dims.toNat 16 r.remaining "BKD num_dims")
  let total_point_count ← StructReader.read_u64
  let num_blocks ← StructReader.read_u64
  let block_size ← StructReader.read_u32
  let min_values ← read_f64s num_dims
  let max_values ← read_f64s num_dims
  let index_start_offset ← StructReader.read_u64
  let root_node_offset ← StructReader.read_u64
  return {
    magic, version, num_dims, bytes_per_dim
    total_point_count := total_point_count.toNat
    num_blocks := num_blocks.toNat
    block_size := block_size.toNat
    min_values, max_values
    index_start_offset := index_start_offset.toNat
    root_node_offset := root_node_offset.toNat }

/-- `open`. -/
def open_file (file : Bytes) : Except Fault BKDReader :=
  match read_header (StructReader.new file) with
  | .ok (header, _) => .ok { header, file }
  | .error e => .error e

/-- `value_range`. -/
def value_range (r : BKDReader) (dim : ℕ) : Option (F64 × F64 × ℕ) :=
  if r.header.total_point_count = 0 then none
  else
    r.header.min_values[dim]?.bind fun min =>
      r.header.max_values[dim]?.map fun max => (min, max, r.header.total_point_count)

/-- `read_child_aabb`. -/
def read_child_aabb (num_dims : ℕ) : Read AABB := do
  let min ← read_f64s num_dims
  let max ← read_f64s num_dims
  Read.liftE (AABB.new min max)

/-! ## A leaf -/

/-- `read_leaf_fixed_header`. -/
def read_leaf_fixed_header (num_dims total_point_count block_size : ℕ) : Read LeafHeader := do
  let count := (← StructReader.read_u32).toNat
  if total_point_count < count then
    throw (Fault.error (LaurusError.index
      (s!"BKD leaf: declares {count} points but the tree has only " ++
        s!"{total_point_count} total — segment is corrupted")))
  if block_size < count then
    throw (Fault.error (LaurusError.index
      (s!"BKD leaf: declares {count} points but block_size is only " ++
        s!"{block_size} — segment is corrupted")))
  let leaf_aabb ← read_child_aabb num_dims
  let doc_id_base ← StructReader.read_u64
  let doc_id_bits := (← StructReader.read_u8).toNat
  if 64 < doc_id_bits then
    throw (Fault.error (LaurusError.index
      s!"BKD leaf: doc_id_bits = {doc_id_bits} exceeds 64 — segment is corrupted"))
  let point_dims := (leaf_aabb.min.zip leaf_aabb.max).map fun side => dim_point_bits side.1 side.2
  let point_section_lens := point_dims.map fun dim => packed_byte_len count dim.2
  let doc_id_section_len := packed_byte_len count doc_id_bits
  let total_packed_len := point_section_lens.sum + doc_id_section_len
  let r ← get
  let _ ← Read.liftE (checked_len_u64 total_packed_len r.remaining "BKD leaf packed data")
  return {
    count, leaf_aabb, doc_id_base, doc_id_bits
    point_base := point_dims.map Prod.fst
    point_bits := point_dims.map Prod.snd
    point_section_lens, doc_id_section_len }

/-- `skip_points`. -/
def skip_points (header : LeafHeader) : Read Unit := do
  let total := header.point_section_lens.sum
  if 0 < total then
    let _ ← StructReader.seek (.Current total)

/-- One dimension of `decode_points_into`. -/
def decode_dim (header : LeafHeader) (d : ℕ) : Read (List F64) := do
  let len := header.point_section_lens.getD d 0
  let bits := header.point_bits.getD d 0
  let base := header.point_base.getD d 0
  if len = 0 then return List.replicate header.count (sortable_u64_to_f64 base)
  let values ← StructReader.read_raw_with len (BitReader.read_values bits header.count).run
  let deltas ← Read.lift values
  return deltas.map fun delta => sortable_u64_to_f64 (base + delta)

/-- `decode_points_into`: the columns. -/
def decode_points_into (header : LeafHeader) : List ℕ → Read (List (List F64))
  | [] => return []
  | d :: dims => do
    let column ← decode_dim header d
    let columns ← decode_points_into header dims
    return column :: columns

/-- The point in a row of the columns. -/
def point_at (columns : List (List F64)) (i : ℕ) : List F64 :=
  columns.map fun column => column.getD i default

section Visit

variable {V : Type} [IntersectVisitor V]

/-- `dispatch`. -/
def dispatch (points_buf : Option (List (List F64))) (visitor : V) (doc_id : UInt64) (i : ℕ) : V :=
  match points_buf with
  | some columns => IntersectVisitor.visit visitor doc_id (point_at columns i)
  | none => IntersectVisitor.visit_inside visitor doc_id

/-- The loop over the packed documents, so many of them from the `i`-th. -/
def dispatch_deltas (points_buf : Option (List (List F64))) (bits : ℕ) :
    ℕ → ℕ → UInt64 → V → BitRead V
  | 0, _, _, visitor => return visitor
  | left + 1, i, running, visitor => do
    let delta ← BitReader.read bits
    if i = 0 ∧ delta ≠ 0 then
      throw (Fault.error (LaurusError.index
        "BKD leaf: first packed doc_id delta must be 0 — segment is corrupted"))
    let running := running + delta
    dispatch_deltas points_buf bits left (i + 1) running (dispatch points_buf visitor running i)

/-- `decode_doc_ids_and_dispatch`. -/
def decode_doc_ids_and_dispatch (header : LeafHeader) (points_buf : Option (List (List F64)))
    (visitor : V) : Read V := do
  let len := header.doc_id_section_len
  if len = 0 then
    return (List.range header.count).foldl
      (fun visitor i => dispatch points_buf visitor header.doc_id_base i) visitor
  let visited ← StructReader.read_raw_with len
    (dispatch_deltas points_buf header.doc_id_bits header.count 0 header.doc_id_base visitor).run
  Read.lift visited

variable (header : BKDFileHeader)

/-- `intersect_leaf`. -/
def intersect_leaf (offset : ℕ) (visitor : V) : Read V := do
  let _ ← StructReader.seek (.Start offset)
  let leaf ← read_leaf_fixed_header header.num_dims header.total_point_count header.block_size
  match IntersectVisitor.compare visitor leaf.leaf_aabb with
  | .Outside => return visitor
  | .Inside =>
    skip_points leaf
    decode_doc_ids_and_dispatch leaf none visitor
  | .Crosses =>
    let columns ← decode_points_into leaf (List.range header.num_dims)
    decode_doc_ids_and_dispatch leaf (some columns) visitor

/-- `collect_leaf`. -/
def collect_leaf (offset : ℕ) (visitor : V) : Read V := do
  let _ ← StructReader.seek (.Start offset)
  let leaf ← read_leaf_fixed_header header.num_dims header.total_point_count header.block_size
  skip_points leaf
  decode_doc_ids_and_dispatch leaf none visitor

/-! ## The subtrees -/

/-- `collect_subtree`. -/
def collect_subtree : ℕ → ℕ → V → Read V
  | 0, _, _ => throw (Fault.panicked "collect_subtree: stack overflow")
  | levels + 1, offset, visitor => do
    if offset < header.index_start_offset then collect_leaf header offset visitor
    else
      let _ ← StructReader.seek (.Start offset)
      let _split_dim ← StructReader.read_u32
      let _split_value ← StructReader.read_f64
      let aabb_bytes := header.num_dims * 16 * 2
      let _ ← StructReader.seek (.Current aabb_bytes)
      let left_offset ← StructReader.read_u64
      let right_offset ← StructReader.read_u64
      let visitor ← collect_subtree levels left_offset.toNat visitor
      collect_subtree levels right_offset.toNat visitor

/-- `intersect_subtree`. -/
def intersect_subtree : ℕ → ℕ → V → Read V
  | 0, _, _ => throw (Fault.panicked "intersect_subtree: stack overflow")
  | levels + 1, offset, visitor => do
    if offset < header.index_start_offset then intersect_leaf header offset visitor
    else
      let _ ← StructReader.seek (.Start offset)
      let _split_dim ← StructReader.read_u32
      let _split_value ← StructReader.read_f64
      let left_aabb ← read_child_aabb header.num_dims
      let right_aabb ← read_child_aabb header.num_dims
      let left_offset ← StructReader.read_u64
      let right_offset ← StructReader.read_u64
      let child (aabb : AABB) (child_offset : ℕ) (visitor : V) : Read V :=
        match IntersectVisitor.compare visitor aabb with
        | .Outside => return visitor
        | .Inside => collect_subtree header levels child_offset visitor
        | .Crosses => intersect_subtree levels child_offset visitor
      let visitor ← child left_aabb left_offset.toNat visitor
      child right_aabb right_offset.toNat visitor

/-- `intersect`. A tree has no more levels than its file has bytes. -/
def intersect (r : BKDReader) (visitor : V) : Except Fault V :=
  if r.header.total_point_count = 0 then .ok visitor
  else
    let root_offset := r.header.root_node_offset
    let walk :=
      if root_offset < r.header.index_start_offset then
        intersect_leaf r.header root_offset visitor
      else intersect_subtree r.header r.file.length root_offset visitor
    match walk (StructReader.new r.file) with
    | .ok (visitor, _) => .ok visitor
    | .error e => .error e

end Visit

/-- `range_search`. -/
def range_search (r : BKDReader) (mins maxs : List (Option F64)) (include_min include_max : Bool) :
    Except Fault (List UInt64) := do
  let visitor ← r.intersect (RangeQueryVisitor.new mins maxs include_min include_max)
  return (visitor.hits.insertionSort (· ≤ ·)).dedup

end BKDReader

/-!
## Where a walk of a tree comes

The offsets that a reader's walk comes to, one after the other, with the boxes
that the visitor compares at each, and the graph that the child offsets of a
file make. The walk itself is the reader's; what it reads of a node has a name
here.
-/

/-- What the bytes are used for of what is read from a state on, if it is. -/
def after {α β : Type} (p : Read α) (r : StructReader) (next : α → StructReader → List β) :
    List β :=
  match p r with
  | .ok (a, r) => next a r
  | .error _ => []

/-- What the walk of a node reads of a child. -/
def read_child {V : Type} (relation : CellRelation) (visitor : V) (collect intersect : Read V) :
    Read V :=
  match relation with
  | .Outside => return visitor
  | .Inside => collect
  | .Crosses => intersect

namespace BKDReader

/-! ## The graph of the child offsets -/

/-- The word at an offset. -/
def word_at (file : Bytes) (offset : ℕ) : ℕ := Bytes.toNatLE ((file.drop offset).take 8)

/-- The children that the record of a node names, if it lies in the file. -/
def children (header : BKDFileHeader) (file : Bytes) (offset : ℕ) : Option (ℕ × ℕ) :=
  if header.index_start_offset ≤ offset ∧
      offset + BKDWriter.node_size header.num_dims ≤ file.length then
    some (word_at file (offset + (12 + 32 * header.num_dims)),
      word_at file (offset + (20 + 32 * header.num_dims)))
  else none

/-- No offset is reached from the root by two paths of child offsets. -/
def IsTree (r : BKDReader) : Prop :=
  Unfolding.OnePath (children r.header r.file) r.header.root_node_offset

/-! ## A node -/

/-- What the walk reads of a node. -/
structure NodeRecord where
  left_aabb : AABB
  right_aabb : AABB
  left_offset : ℕ
  right_offset : ℕ

variable (header : BKDFileHeader)

/-- The reads of `collect_subtree`: the boxes are passed over. -/
def read_offsets (offset : ℕ) : Read (ℕ × ℕ) := do
  let _ ← StructReader.seek (.Start offset)
  let _split_dim ← StructReader.read_u32
  let _split_value ← StructReader.read_f64
  let aabb_bytes := header.num_dims * 16 * 2
  let _ ← StructReader.seek (.Current aabb_bytes)
  let left_offset ← StructReader.read_u64
  let right_offset ← StructReader.read_u64
  return (left_offset.toNat, right_offset.toNat)

/-- The reads of `intersect_subtree`. -/
def read_node (offset : ℕ) : Read NodeRecord := do
  let _ ← StructReader.seek (.Start offset)
  let _split_dim ← StructReader.read_u32
  let _split_value ← StructReader.read_f64
  let left_aabb ← read_child_aabb header.num_dims
  let right_aabb ← read_child_aabb header.num_dims
  let left_offset ← StructReader.read_u64
  let right_offset ← StructReader.read_u64
  return ⟨left_aabb, right_aabb, left_offset.toNat, right_offset.toNat⟩

/-- The reads of a leaf before its points. -/
def read_leaf (offset : ℕ) : Read LeafHeader := do
  let _ ← StructReader.seek (.Start offset)
  read_leaf_fixed_header header.num_dims header.total_point_count header.block_size

section Visits

variable {V : Type} [IntersectVisitor V]

/-- Where it comes there. -/
def child_visits {β : Type} (relation : CellRelation) (collect intersect : List β) : List β :=
  match relation with
  | .Outside => []
  | .Inside => collect
  | .Crosses => intersect

/-- An offset that the walk comes to, and the boxes that are compared there. -/
structure Visit where
  offset : ℕ
  boxes : List AABB

/-- Where `collect_subtree` comes: no boxes are compared. -/
def collect_visits : ℕ → ℕ → V → StructReader → List Visit
  | 0, offset, _, _ => [⟨offset, []⟩]
  | levels + 1, offset, visitor, r =>
    if offset < header.index_start_offset then [⟨offset, []⟩]
    else
      ⟨offset, []⟩ :: after (read_offsets header offset) r fun both r =>
        collect_visits levels both.1 visitor r ++
          after (collect_subtree header levels both.1 visitor) r fun visitor r =>
            collect_visits levels both.2 visitor r

/-- Where `intersect_subtree` comes. -/
def intersect_visits : ℕ → ℕ → V → StructReader → List Visit
  | 0, offset, _, _ => [⟨offset, []⟩]
  | levels + 1, offset, visitor, r =>
    if offset < header.index_start_offset then
      [⟨offset, after (read_leaf header offset) r fun leaf _ => [leaf.leaf_aabb]⟩]
    else
      ⟨offset, after (read_node header offset) r fun node _ =>
          [node.left_aabb, node.right_aabb]⟩ ::
        after (read_node header offset) r fun node r =>
          child_visits (IntersectVisitor.compare visitor node.left_aabb)
              (collect_visits header levels node.left_offset visitor r)
              (intersect_visits levels node.left_offset visitor r) ++
            after (read_child (IntersectVisitor.compare visitor node.left_aabb) visitor
                (collect_subtree header levels node.left_offset visitor)
                (intersect_subtree header levels node.left_offset visitor)) r fun visitor r =>
              child_visits (IntersectVisitor.compare visitor node.right_aabb)
                (collect_visits header levels node.right_offset visitor r)
                (intersect_visits levels node.right_offset visitor r)

/-- Where `intersect` comes. -/
def visits (r : BKDReader) (visitor : V) : List Visit :=
  if r.header.total_point_count = 0 then []
  else intersect_visits r.header r.file.length r.header.root_node_offset visitor
    (StructReader.new r.file)

end Visits

/-- A visitor that every box crosses, and that keeps nothing. -/
structure EveryCell where
  deriving DecidableEq

instance : IntersectVisitor EveryCell where
  compare _ _ := .Crosses
  visit_inside visitor _ := visitor
  visit visitor _ _ := visitor

end BKDReader

end Laurus
