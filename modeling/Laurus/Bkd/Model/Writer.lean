import Laurus.Common.Bytes
import Laurus.Common.Comp
import Laurus.Common.Float64
import Laurus.Storage.Model.Files
import Laurus.Storage.Model.Structured
import Mathlib.Data.List.Sort
import Mathlib.Order.Interval.Finset.Nat

/-!
# Building a tree (`BKDWriter`)

The permutation of the points is passed down and not sorted in place. The
sorts are stable. What a float subtraction gives, by which the split axis is
chosen, is the parameter `sub`.
-/

namespace Laurus

/-!
## Packed columns (`structures/bkd_tree.rs`)

The accumulators are the natural numbers that the `u128` ones hold: eight
bits at most are left in one before a value of at most 64 joins them.
-/

/-! ## Sortable bits -/

/-- `1 << 63`. -/
def sign_bit : UInt64 := (1 : UInt64) <<< 63

/-- `f64_to_sortable_u64`. -/
def f64_to_sortable_u64 (v : F64) : UInt64 :=
  if v.bits &&& sign_bit ≠ 0 then ~~~v.bits else v.bits ||| sign_bit

/-- `sortable_u64_to_f64`. -/
def sortable_u64_to_f64 (bits : UInt64) : F64 :=
  if bits &&& sign_bit ≠ 0 then ⟨bits &&& ~~~sign_bit⟩ else ⟨~~~bits⟩

/-- `bits_needed`. -/
def bits_needed (v : UInt64) : ℕ := if v = 0 then 0 else v.toNat.log2 + 1

/-- `packed_byte_len`. -/
def packed_byte_len (count bits : ℕ) : ℕ := (count * bits + 7) / 8

/-- `dim_point_bits`. -/
def dim_point_bits (leaf_min_d leaf_max_d : F64) : UInt64 × ℕ :=
  let base := f64_to_sortable_u64 leaf_min_d
  let top := f64_to_sortable_u64 leaf_max_d
  (base, bits_needed (top - base))

/-! ## Writing bits -/

/-- `BitWriter`. -/
structure BitWriter where
  buf : Bytes
  acc : ℕ
  acc_bits : ℕ
  deriving DecidableEq, Repr

namespace BitWriter

/-- `BitWriter::new`. -/
def new : BitWriter := { buf := [], acc := 0, acc_bits := 0 }

/-- The loop of `write`, for at most so many bytes. -/
def flush : ℕ → BitWriter → BitWriter
  | 0, w => w
  | bytes + 1, w =>
    if 8 ≤ w.acc_bits then
      flush bytes
        { buf := w.buf ++ [UInt8.ofNat (w.acc &&& 0xFF)]
          acc := w.acc >>> 8
          acc_bits := w.acc_bits - 8 }
    else w

/-- `write`. -/
def write (w : BitWriter) (value : UInt64) (width : ℕ) : BitWriter :=
  let mask := (1 <<< width) - 1
  flush (w.acc_bits + width)
    { w with
      acc := w.acc ||| (value.toNat &&& mask) <<< w.acc_bits
      acc_bits := w.acc_bits + width }

/-- `finish`. -/
def finish (w : BitWriter) : Bytes :=
  if 0 < w.acc_bits then w.buf ++ [UInt8.ofNat (w.acc &&& 0xFF)] else w.buf

end BitWriter

/-- The loop that packs the values of a column. -/
def pack_column (values : List UInt64) (bits : ℕ) : Bytes :=
  (values.foldl (fun bw value => bw.write value bits) BitWriter.new).finish

/-! ## Reading bits -/

/-- `BitReader`. -/
structure BitReader where
  data : Bytes
  byte_pos : ℕ
  acc : ℕ
  acc_bits : ℕ
  deriving DecidableEq, Repr

/-- A computation that reads bits. -/
abbrev BitRead := Comp Fault BitReader

namespace BitReader

/-- `BitReader::new`. -/
def new (data : Bytes) : BitReader := { data, byte_pos := 0, acc := 0, acc_bits := 0 }

/-- The loop of `read`, for at most so many bytes. -/
def fill (width : ℕ) : ℕ → BitRead Unit
  | 0 => return ()
  | bytes + 1 => do
    let r ← get
    if r.acc_bits < width then
      match r.data[r.byte_pos]? with
      | some byte =>
        set { r with
          acc := r.acc ||| byte.toNat <<< r.acc_bits
          acc_bits := r.acc_bits + 8
          byte_pos := r.byte_pos + 1 }
        fill width bytes
      | none => throw (Fault.panicked "BitReader::read: data[byte_pos]")

/-- `read`. -/
def read (width : ℕ) : BitRead UInt64 := do
  fill width width
  let r ← get
  let mask := (1 <<< width) - 1
  let v := r.acc &&& mask
  set { r with acc := r.acc >>> width, acc_bits := r.acc_bits - width }
  return UInt64.ofNat v

/-- Reading so many values. -/
def read_values (bits : ℕ) : ℕ → BitRead (List UInt64)
  | 0 => return []
  | count + 1 => do
    let value ← read bits
    let values ← read_values bits count
    return value :: values

end BitReader

/-- `BKD_MAGIC`. -/
def BKD_MAGIC : UInt32 := 0x54444B42

/-- `BKD_VERSION`. -/
def BKD_VERSION : UInt32 := 4

/-- `IndexNode`. -/
structure IndexNode where
  split_dim : ℕ
  split_value : F64
  left_min : List F64
  left_max : List F64
  right_min : List F64
  right_max : List F64
  left_offset : ℕ
  right_offset : ℕ
  left_child_idx : Option ℕ
  right_child_idx : Option ℕ
  deriving DecidableEq, Repr

/-- `SubtreeInfo`. -/
structure SubtreeInfo where
  node_idx : Option ℕ
  min : List F64
  max : List F64
  deriving DecidableEq, Repr

/-- `BuildContext`. -/
structure BuildContext where
  points : List F64
  doc_ids : List UInt64
  num_dims : ℕ

namespace BuildContext

/-- `value`. -/
def value (ctx : BuildContext) (i d : ℕ) : F64 := ctx.points.getD (i * ctx.num_dims + d) default

/-- `doc_ids[i]`. -/
def doc_id (ctx : BuildContext) (i : ℕ) : UInt64 := ctx.doc_ids.getD i 0

end BuildContext

/-- `compute_aabb`. -/
def compute_aabb (ctx : BuildContext) (indices : List ℕ) : List F64 × List F64 :=
  ((List.range ctx.num_dims).map fun d =>
      (indices.map (ctx.value · d)).foldl F64.total_min F64.INFINITY,
    (List.range ctx.num_dims).map fun d =>
      (indices.map (ctx.value · d)).foldl F64.total_max F64.NEG_INFINITY)

/-- `widest_axis`. -/
def widest_axis (sub : F64 → F64 → F64) (min max : List F64) : ℕ :=
  let range d := sub (max.getD d default) (min.getD d default)
  (List.range' 1 (min.length - 1)).foldl
    (fun best d => if (range best).lt (range d) then d else best) 0

/-- `BKDWriter`. -/
structure BKDWriter where
  writer : StructWriter
  block_size : ℕ
  num_blocks : ℕ
  num_dims : ℕ
  min_values : List F64
  max_values : List F64
  index_nodes : List IndexNode

/-- A step of building a tree. -/
abbrev Build := Comp LaurusError BKDWriter

/-- Writes on a tree's output. -/
def Build.write (p : Write Unit) : Build Unit := do
  let s ← get
  match p s.writer with
  | .ok ((), writer) => set { s with writer }
  | .error e => throw e

/-- The `write_f64` of each of some doubles. -/
def write_f64s (vs : List F64) : Write Unit := vs.forM fun v => StructWriter.write_f64 v.bits

/-! ## A leaf -/

/-- The largest of the gaps between one document and the next. -/
def max_delta (docs : List UInt64) : UInt64 :=
  ((docs.zip docs.tail).map fun w => w.2 - w.1).foldl max 0

/-- The packed column of a dimension. -/
def write_dim (ctx : BuildContext) (indices : List ℕ) (leaf_min leaf_max : List F64) (d : ℕ) :
    Write Unit := do
  let (base, bits) := dim_point_bits (leaf_min.getD d default) (leaf_max.getD d default)
  if bits ≠ 0 then
    StructWriter.write_raw
      (pack_column (indices.map fun i => f64_to_sortable_u64 (ctx.value i d) - base) bits)

/-- The gaps from one document to the next, the first from `prev`. -/
def doc_id_deltas (prev : UInt64) : List UInt64 → List UInt64
  | [] => []
  | d :: docs => (d - prev) :: doc_id_deltas d docs

/-- `write_leaf_block`. -/
def write_leaf_block (ctx : BuildContext) (indices : List ℕ) (leaf_min leaf_max : List F64) :
    Write Unit := do
  StructWriter.write_u32 (UInt32.ofNat indices.length)
  write_f64s leaf_min
  write_f64s leaf_max
  let indices := indices.insertionSort fun a b => ctx.doc_id a ≤ ctx.doc_id b
  let docs := indices.map ctx.doc_id
  let doc_id_min := docs.headD 0
  let doc_id_bits := bits_needed (max_delta docs)
  StructWriter.write_u64 doc_id_min
  StructWriter.write_u8 (UInt8.ofNat doc_id_bits)
  (List.range ctx.num_dims).forM fun d => write_dim ctx indices leaf_min leaf_max d
  if 0 < doc_id_bits then
    StructWriter.write_raw (pack_column (doc_id_deltas doc_id_min docs) doc_id_bits)

namespace BKDWriter

/-- `new` and `with_block_size`. -/
def new (block_size num_dims : ℕ) : BKDWriter :=
  { writer := StructWriter.new, block_size, num_blocks := 0, num_dims
    min_values := List.replicate num_dims F64.MAX
    max_values := List.replicate num_dims F64.MIN
    index_nodes := [] }

/-- `header_size`. -/
def header_size (num_dims : ℕ) : ℕ := 4 + 4 + 4 + 4 + 8 + 8 + 4 + num_dims * 8 * 2 + 8 + 8

/-- `node_size`. -/
def node_size (num_dims : ℕ) : ℕ := 28 + 32 * num_dims

/-! ## The subtrees -/

variable (sub : F64 → F64 → F64) (ctx : BuildContext)

/-- `build_subtree`, for at most so many points: each half is shorter, and
a call on none is the error below. -/
def build_subtree : ℕ → List ℕ → Build SubtreeInfo
  | 0, _ => throw (LaurusError.index "build_subtree called with empty indices")
  | points + 1, indices => do
    if indices = [] then throw (LaurusError.index "build_subtree called with empty indices")
    let (subtree_min, subtree_max) := compute_aabb ctx indices
    let w ← get
    if indices.length ≤ w.block_size then
      Build.write (write_leaf_block ctx indices subtree_min subtree_max)
      modify fun w => { w with num_blocks := w.num_blocks + 1 }
      return { node_idx := none, min := subtree_min, max := subtree_max }
    let split_dim := widest_axis sub subtree_min subtree_max
    let indices := indices.insertionSort fun a b =>
      (ctx.value a split_dim).key ≤ (ctx.value b split_dim).key
    let mid := indices.length / 2
    let left_indices := indices.take mid
    let right_indices := indices.drop mid
    let split_value := ctx.value (right_indices.headD 0) split_dim
    let node_idx := w.index_nodes.length
    let node : IndexNode :=
      { split_dim, split_value, left_min := [], left_max := [], right_min := [], right_max := []
        left_offset := 0, right_offset := 0, left_child_idx := none, right_child_idx := none }
    set { w with index_nodes := w.index_nodes ++ [node] }
    let left_info ← build_subtree points left_indices
    let between ← get
    let right_info ← build_subtree points right_indices
    modify fun after =>
      { after with
        index_nodes := after.index_nodes.set node_idx
          { node with
            left_child_idx := left_info.node_idx
            right_child_idx := right_info.node_idx
            left_min := left_info.min
            left_max := left_info.max
            right_min := right_info.min
            right_max := right_info.max
            left_offset := if left_info.node_idx = none then w.writer.position else 0
            right_offset :=
              if right_info.node_idx = none then between.writer.position else 0 } }
    return { node_idx := some node_idx, min := subtree_min, max := subtree_max }

/-! ## The file -/

/-- The offset of a child, where it is a node. -/
def child_offset (start_pos node_size offset : ℕ) : Option ℕ → ℕ
  | some idx => start_pos + idx * node_size
  | none => offset

/-- One node of `write_index`. -/
def write_node (start_pos node_size : ℕ) (node : IndexNode) : Write Unit := do
  StructWriter.write_u32 (UInt32.ofNat node.split_dim)
  StructWriter.write_f64 node.split_value.bits
  write_f64s node.left_min
  write_f64s node.left_max
  write_f64s node.right_min
  write_f64s node.right_max
  StructWriter.write_u64
    (UInt64.ofNat (child_offset start_pos node_size node.left_offset node.left_child_idx))
  StructWriter.write_u64
    (UInt64.ofNat (child_offset start_pos node_size node.right_offset node.right_child_idx))

/-- `write_index`. -/
def write_index : Build Unit := do
  let w ← get
  Build.write
    (w.index_nodes.forM (write_node w.writer.position (node_size w.num_dims)))

/-- The writes of `write_header`. -/
def header_fields (w : BKDWriter) (total_count index_start root_offset : ℕ) : Write Unit := do
  StructWriter.write_u32 BKD_MAGIC
  StructWriter.write_u32 BKD_VERSION
  StructWriter.write_u32 (UInt32.ofNat w.num_dims)
  StructWriter.write_u32 8
  StructWriter.write_u64 (UInt64.ofNat total_count)
  StructWriter.write_u64 (UInt64.ofNat w.num_blocks)
  StructWriter.write_u32 (UInt32.ofNat w.block_size)
  write_f64s w.min_values
  write_f64s w.max_values
  StructWriter.write_u64 (UInt64.ofNat index_start)
  StructWriter.write_u64 (UInt64.ofNat root_offset)

/-- `write_header`. -/
def write_header (total_count index_start root_offset : ℕ) : Build Unit := do
  let w ← get
  Build.write (StructWriter.fill_header (w.header_fields total_count index_start root_offset))

/-- The first coordinate that is a NaN, with its point's place in the order. -/
def find_nan (ctx : BuildContext) (indices : List ℕ) : Option (ℕ × ℕ) :=
  indices.zipIdx.findSome? fun point =>
    ((List.range ctx.num_dims).find? fun d => (ctx.value point.1 d).is_nan).map fun d =>
      (point.2, d)

/-- The loop over the points that `min_values`, or `max_values`, goes through. -/
def fold_values (op : F64 → F64 → F64) (ctx : BuildContext) (indices : List ℕ)
    (values : List F64) : List F64 :=
  values.zipIdx.map fun entry => (indices.map (ctx.value · entry.2)).foldl op entry.1

/-- `write_permuted`. -/
def write_permuted (points : List F64) (doc_ids : List UInt64) (indices : List ℕ) :
    Build Unit := do
  let w ← get
  if indices = [] then
    Build.write (StructWriter.reserve_header (header_size w.num_dims))
    write_header 0 0 0
  else
    let ctx : BuildContext := { points, doc_ids, num_dims := w.num_dims }
    match find_nan ctx indices with
    | some (doc_idx, dim) =>
      throw (LaurusError.index (s!"Point at doc index {doc_idx} dim {dim} is NaN; BKD requires " ++
        "totally-ordered values (NaN has no defined ordering)"))
    | none =>
      set { w with
        min_values := fold_values F64.total_min ctx indices w.min_values
        max_values := fold_values F64.total_max ctx indices w.max_values }
      Build.write (StructWriter.reserve_header (header_size w.num_dims))
      let root_info ← build_subtree sub ctx indices.length indices
      let index_start_offset := (← get).writer.position
      write_index
      let root_node_offset := match root_info.node_idx with
        | some idx => index_start_offset + idx * node_size w.num_dims
        | none => header_size w.num_dims
      write_header indices.length index_start_offset root_node_offset

/-- `check_buffers`. -/
def check_buffers (points : List F64) (doc_ids : List UInt64) : Build ℕ := do
  let w ← get
  let expected := doc_ids.length * w.num_dims
  if 2 ^ 64 ≤ expected then
    throw (LaurusError.index "Point count overflows when multiplied by num_dims")
  if points.length ≠ expected then
    throw (LaurusError.index
      (s!"Point buffer size mismatch: expected {doc_ids.length} doc_ids * {w.num_dims} dims = " ++
        s!"{expected} f64s, got {points.length}"))
  if 2 ^ 32 ≤ doc_ids.length then
    throw (LaurusError.index
      (s!"BKD point count {doc_ids.length} exceeds u32::MAX; cannot build index permutation"))
  return doc_ids.length

/-- `write`. -/
def write (points : List F64) (doc_ids : List UInt64) : Build Unit := do
  let point_count ← check_buffers points doc_ids
  write_permuted sub points doc_ids (List.range point_count)

/-- `write_sorted_by_doc_id`. -/
def write_sorted_by_doc_id (points : List F64) (doc_ids : List UInt64) (keep : ℕ → Bool) :
    Build Unit := do
  let point_count ← check_buffers points doc_ids
  let order := (List.range point_count).filter keep
  write_permuted sub points doc_ids
    (order.insertionSort fun a b => doc_ids.getD a 0 ≤ doc_ids.getD b 0)

/-- `finish`: the file. -/
def finish (crc32 : Bytes → UInt32) (w : BKDWriter) : Except LaurusError Bytes :=
  w.writer.close crc32

end BKDWriter

end Laurus
