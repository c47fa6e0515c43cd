import Laurus.Common.Bytes
import Laurus.Storage.Model.Files
import Mathlib.Tactic.Ring

/-!
# Multi-vector segments (`vector/index/multivector/format.rs`)

The file of a segment, its writer and its reader. A storage holds bytes under names; its
own errors are left out, but for reading past the end of a file. Sums of `u64` wrap. A
slice that is out of range panics.
-/

namespace Laurus

/-!
## Rows of token vectors (`vector/core/multi_vector.rs`)

The element kinds, how a row is encoded under each, and rows as a segment holds them. An
`f32` and an `f16` are their bits; the arithmetic of rounding, scaling and decoding them is
a parameter. Learning the parameters of `Binary` is left out, and so is scoring.
-/

/-- The arithmetic of floats that rows are encoded and decoded with. -/
structure RowArithmetic where
  /-- `f16_saturating`. -/
  f16_saturating : UInt32 → UInt16
  /-- The scale of an `Int8` row. -/
  int8_scale : List UInt32 → UInt16
  /-- The code of a value under a scale. -/
  int8_code : UInt16 → UInt32 → UInt8
  /-- Whether a value is above the center's. -/
  above_center : UInt32 → UInt16 → Bool
  /-- `f16::to_f32`. -/
  to_f32 : UInt16 → UInt32
  /-- A code times a scale. -/
  int8_value : UInt8 → UInt16 → UInt32
  /-- The values that a `Binary` row's bytes decode to, by their number, under parameters. -/
  binary_value : List UInt16 → Bytes → ℕ → UInt32

/-- `MultiVectorStorage`. -/
inductive MultiVectorStorage
  | F32 | F16 | Int8 | Binary
  deriving DecidableEq, Repr

namespace MultiVectorStorage

/-- `tag`. -/
def tag : MultiVectorStorage → UInt8
  | F32 => 0
  | F16 => 1
  | Int8 => 2
  | Binary => 3

/-- `from_tag`. -/
def from_tag (tag : UInt8) : Option MultiVectorStorage :=
  if tag = 0 then some F32
  else if tag = 1 then some F16
  else if tag = 2 then some Int8
  else if tag = 3 then some Binary
  else none

/-- `row_bytes`. -/
def row_bytes (kind : MultiVectorStorage) (dimension : ℕ) : ℕ :=
  match kind with
  | F32 => dimension * 4
  | F16 => dimension * 2
  | Int8 => dimension + 2
  | Binary => (dimension + 7) / 8

end MultiVectorStorage

/-- Whether an `f16` is finite. -/
def f16_is_finite (bits : UInt16) : Bool := bits.toNat / 1024 % 32 ≠ 31

/-- Whether a finite `f16` is below zero. -/
def f16_is_negative (bits : UInt16) : Bool := 32768 < bits.toNat

/-- `BinaryParams`: the center's values and then the spread's, with what `from_f16_bits`
checks of them. -/
structure BinaryParams where
  dimension : ℕ
  bits : List UInt16
  pos : 0 < dimension
  length : bits.length = 2 * dimension
  finite : bits.all f16_is_finite = true
  spread : ((bits.drop dimension).any f16_is_negative) = false

namespace BinaryParams

/-- `block_len`. -/
def block_len (dimension : ℕ) : ℕ := (4 * dimension + 7) / 8 * 8

/-- `from_f16_bits`. -/
def from_f16_bits (dimension : ℕ) (bits : List UInt16) : Except LaurusError BinaryParams :=
  if h : 0 < dimension ∧ bits.length = 2 * dimension then
    if hvalues : bits.all f16_is_finite = true ∧
        ((bits.drop dimension).any f16_is_negative) = false then
      .ok ⟨dimension, bits, h.1, h.2, hvalues.1, hvalues.2⟩
    else
      .error (LaurusError.index
        "binary parameters hold a non-finite value or a negative spread")
  else .error (LaurusError.index "binary parameters do not match the dimension")

/-- `write_block`. -/
def write_block (params : BinaryParams) : Bytes :=
  let stored := params.bits.flatMap fun b => Bytes.ofNatLE 2 b.toNat
  stored ++ List.replicate (block_len params.dimension - stored.length) 0

/-- `read_block`. -/
def read_block (bytes : Bytes) (dimension : ℕ) : Except LaurusError BinaryParams :=
  let values := 2 * dimension
  if values * 2 ≤ bytes.length then
    from_f16_bits dimension ((Bytes.wordsLE 2 values bytes).map UInt16.ofNat)
  else .error (LaurusError.index "binary parameter block is truncated")

/-- A byte of a row: bit `k` is that of element `8 * j + k`. -/
def row_byte (bit : ℕ → Bool) (j : ℕ) : UInt8 :=
  UInt8.ofNat (((List.range 8).map fun k => if bit (8 * j + k) then 2 ^ k else 0).sum)

/-- `encode_row`. -/
def encode_row (arithmetic : RowArithmetic) (params : BinaryParams) (values : List UInt32) :
    Bytes :=
  let offsets := values.zip (params.bits.take params.dimension)
  (List.range ((values.length + 7) / 8)).map fun j =>
    row_byte (fun i => (offsets[i]?.map fun p => arithmetic.above_center p.1 p.2).getD false) j

/-- `decode_row`. -/
def decode_row (arithmetic : RowArithmetic) (params : BinaryParams) (bytes : Bytes) :
    List UInt32 :=
  (List.range params.dimension).map (arithmetic.binary_value params.bits bytes)

end BinaryParams

/-- `MultiVectorStorage::params_len`. -/
def MultiVectorStorage.params_len (kind : MultiVectorStorage) (dimension : ℕ) : ℕ :=
  match kind with
  | .Binary => BinaryParams.block_len dimension
  | _ => 0

/-- `RowCodec`, and `OwnedCodec`, which owns its parameters. -/
inductive RowCodec
  | F32
  | F16
  | Int8
  | Binary (params : BinaryParams)

namespace RowCodec

/-- `kind`. -/
def kind : RowCodec → MultiVectorStorage
  | F32 => .F32
  | F16 => .F16
  | Int8 => .Int8
  | Binary _ => .Binary

/-- `binary_params`. -/
def binary_params : RowCodec → Option BinaryParams
  | Binary params => some params
  | _ => none

/-- `row_bytes`. -/
def row_bytes (codec : RowCodec) (dimension : ℕ) : ℕ := codec.kind.row_bytes dimension

/-- `same_encoding`. -/
def same_encoding (codec other : RowCodec) : Bool :=
  match codec, other with
  | Binary a, Binary b => a.bits = b.bits
  | a, b => a.kind = b.kind

/-- `OwnedCodec::plain`. -/
def plain : MultiVectorStorage → Option RowCodec
  | .F32 => some F32
  | .F16 => some F16
  | .Int8 => some Int8
  | .Binary => none

/-- `encode_row`. -/
def encode_row (arithmetic : RowArithmetic) (codec : RowCodec) (values : List UInt32) : Bytes :=
  match codec with
  | F32 => values.flatMap fun v => Bytes.ofNatLE 4 v.toNat
  | F16 => values.flatMap fun v => Bytes.ofNatLE 2 (arithmetic.f16_saturating v).toNat
  | Int8 =>
    let scale := arithmetic.int8_scale values
    values.map (arithmetic.int8_code scale) ++ Bytes.ofNatLE 2 scale.toNat
  | Binary params => params.encode_row arithmetic values

/-- `decode_row`. -/
def decode_row (arithmetic : RowArithmetic) (codec : RowCodec) (bytes : Bytes) (dimension : ℕ) :
    List UInt32 :=
  match codec with
  | F32 => (Bytes.wordsLE 4 dimension bytes).map UInt32.ofNat
  | F16 => (Bytes.wordsLE 2 dimension bytes).map fun c => arithmetic.to_f32 (UInt16.ofNat c)
  | Int8 =>
    let scale := UInt16.ofNat (Bytes.toNatLE ((bytes.drop dimension).take 2))
    (bytes.take dimension).map fun b => arithmetic.int8_value b scale
  | Binary params => params.decode_row arithmetic bytes

/-- A codec goes with a dimension: parameters are of that dimension. -/
def Fits (codec : RowCodec) (dimension : ℕ) : Prop :=
  ∀ params, codec.binary_params = some params → params.dimension = dimension

end RowCodec

/-- `chunks_exact`: the first `count` pieces of `size`. -/
def chunks_exact {α : Type} (size : ℕ) : ℕ → List α → List (List α)
  | 0, _ => []
  | count + 1, l => l.take size :: chunks_exact size count (l.drop size)

/-- `MultiVectorRows`, of whole rows under parameters that go with the dimension. -/
structure MultiVectorRows where
  codec : RowCodec
  dimension : ℕ
  bytes : Bytes
  pos : 0 < dimension
  whole : bytes.length % codec.row_bytes dimension = 0
  fits : codec.Fits dimension

namespace MultiVectorRows

/-- `row_count`. -/
def row_count (rows : MultiVectorRows) : ℕ :=
  rows.bytes.length / rows.codec.row_bytes rows.dimension

/-- `to_f32`, by `decode_into`: a zero-copy view of `F32` rows holds the same values. -/
def to_f32 (arithmetic : RowArithmetic) (rows : MultiVectorRows) : List UInt32 :=
  (chunks_exact (rows.codec.row_bytes rows.dimension) rows.row_count rows.bytes).flatMap
    fun row => rows.codec.decode_row arithmetic row rows.dimension

end MultiVectorRows

namespace MultiVector

/-- `MAGIC`. -/
def MAGIC : Bytes := [0x4C, 0x4D, 0x56, 0x31]

/-- `FOOTER_MAGIC`. -/
def FOOTER_MAGIC : Bytes := [0x4C, 0x4D, 0x56, 0x46]

/-- `VERSION`. -/
def VERSION : ℕ := 1

/-- `HEADER_LEN`. -/
def HEADER_LEN : ℕ := 64

/-- `DOC_ENTRY_LEN`. -/
def DOC_ENTRY_LEN : ℕ := 24

/-- `FOOTER_LEN`. -/
def FOOTER_LEN : ℕ := 16

/-- `DocEntry`. -/
structure DocEntry where
  doc_id : UInt64
  vector_count : UInt32
  pool_factor : UInt32
  deriving DecidableEq, Repr

/-- `Header`. -/
structure Header where
  kind : MultiVectorStorage
  dimension : ℕ
  doc_count : ℕ
  vector_count : ℕ
  deriving DecidableEq, Repr

/-- The number in some bytes of a field, little-endian. -/
def number_at (bytes : Bytes) (offset width : ℕ) : ℕ :=
  Bytes.toNatLE ((bytes.drop offset).take width)

/-- `u64::checked_mul`. -/
def checked_mul_u64 (a b : ℕ) : Option ℕ := if a * b < 2 ^ 64 then some (a * b) else none

/-- `u64::checked_add`. -/
def checked_add_u64 (a b : ℕ) : Option ℕ := if a + b < 2 ^ 64 then some (a + b) else none

namespace Header

/-- `encode`. -/
def encode (header : Header) : Bytes :=
  MAGIC ++ Bytes.ofNatLE 2 VERSION ++ [header.kind.tag, 0] ++
    Bytes.ofNatLE 4 header.dimension ++ List.replicate 4 0 ++ Bytes.ofNatLE 8 header.doc_count ++
    Bytes.ofNatLE 8 header.vector_count ++ List.replicate 32 0

/-- `decode`, of `HEADER_LEN` bytes. -/
def decode (bytes : Bytes) : Except LaurusError Header :=
  let version := number_at bytes 4 2
  let tag := bytes.getD 6 0
  let dimension := number_at bytes 8 4
  if bytes.take 4 ≠ MAGIC then
    .error (.IncompatibleFormat "not a multi-vector segment (bad magic)")
  else if version ≠ VERSION then
    .error (.IncompatibleFormat
      s!"multi-vector segment version {version} is not supported (expected {VERSION})")
  else
    match MultiVectorStorage.from_tag tag with
    | none => .error (.IncompatibleFormat
        s!"multi-vector element kind {tag} is not supported by this version")
    | some kind =>
      if dimension = 0 then
        .error (LaurusError.index "multi-vector segment declares dimension 0")
      else
        .ok ⟨kind, dimension, number_at bytes 16 8, number_at bytes 24 8⟩

/-- `params_len`. -/
def params_len (header : Header) : ℕ := header.kind.params_len header.dimension

/-- `payload_offset`. -/
def payload_offset (header : Header) : Option ℕ := do
  let table ← checked_mul_u64 header.doc_count DOC_ENTRY_LEN
  let offset ← checked_add_u64 table HEADER_LEN
  checked_add_u64 offset header.params_len

/-- `payload_len`. -/
def payload_len (header : Header) : Option ℕ :=
  checked_mul_u64 header.vector_count (header.kind.row_bytes header.dimension)

/-- `file_len`. -/
def file_len (header : Header) : Option ℕ := do
  let offset ← header.payload_offset
  let len ← header.payload_len
  let stop ← checked_add_u64 offset len
  checked_add_u64 stop FOOTER_LEN

end Header

/-! ## Writing -/

/-- `PayloadSink`, with what it has written and its hasher. -/
structure PayloadSink where
  output : Bytes
  hasher : UInt32
  remaining : ℕ

/-- A call of a sink: `write` or `append`. -/
inductive SinkCall
  | write (values : List UInt32)
  | append (rows : MultiVectorRows)

namespace PayloadSink

/-- Rows are written and counted. -/
def push (sink : PayloadSink) (bytes : Bytes) (rows : ℕ) : PayloadSink :=
  { output := sink.output ++ bytes
    hasher := bytes.foldl Crc32.update sink.hasher
    remaining := sink.remaining - rows }

/-- `write`. -/
def write (arithmetic : RowArithmetic) (codec : RowCodec) (dimension : ℕ) (sink : PayloadSink)
    (values : List UInt32) : Except LaurusError PayloadSink :=
  if values.length % dimension ≠ 0 then
    .error (LaurusError.internal "multi-vector payload is not a whole number of rows")
  else
    let rows := values.length / dimension
    if sink.remaining < rows then
      .error (LaurusError.internal
        "multi-vector payload is longer than its table entry declares")
    else
      .ok (sink.push ((chunks_exact dimension rows values).flatMap (codec.encode_row arithmetic))
        rows)

/-- `write_encoded`. -/
def write_encoded (codec : RowCodec) (dimension : ℕ) (sink : PayloadSink) (bytes : Bytes) :
    Except LaurusError PayloadSink :=
  let row_bytes := codec.row_bytes dimension
  if bytes.length % row_bytes ≠ 0 then
    .error (LaurusError.internal "multi-vector payload is not a whole number of rows")
  else
    let rows := bytes.length / row_bytes
    if sink.remaining < rows then
      .error (LaurusError.internal
        "multi-vector payload is longer than its table entry declares")
    else .ok (sink.push bytes rows)

/-- `append`. -/
def append (arithmetic : RowArithmetic) (codec : RowCodec) (dimension : ℕ) (sink : PayloadSink)
    (rows : MultiVectorRows) : Except LaurusError PayloadSink :=
  if rows.dimension ≠ dimension then
    .error (LaurusError.internal "multi-vector rows have another dimension than the segment")
  else if rows.codec.same_encoding codec then sink.write_encoded codec dimension rows.bytes
  else sink.write arithmetic codec dimension (rows.to_f32 arithmetic)

/-- One call. -/
def call (arithmetic : RowArithmetic) (codec : RowCodec) (dimension : ℕ) (sink : PayloadSink) :
    SinkCall → Except LaurusError PayloadSink
  | .write values => sink.write arithmetic codec dimension values
  | .append rows => sink.append arithmetic codec dimension rows

/-- The calls that fill a document, up to the first error. -/
def fill (arithmetic : RowArithmetic) (codec : RowCodec) (dimension : ℕ) :
    PayloadSink → List SinkCall → Except LaurusError PayloadSink
  | sink, [] => .ok sink
  | sink, c :: calls =>
    match sink.call arithmetic codec dimension c with
    | .error e => .error e
    | .ok sink => fill arithmetic codec dimension sink calls

end PayloadSink

/-- The entries of the document table, from a first vector on. -/
def table_bytes : ℕ → List DocEntry → Bytes
  | _, [] => []
  | first_vector, doc :: docs =>
    Bytes.ofNatLE 8 doc.doc_id.toNat ++ Bytes.ofNatLE 8 first_vector ++
      Bytes.ofNatLE 4 doc.vector_count.toNat ++ Bytes.ofNatLE 4 doc.pool_factor.toNat ++
      table_bytes ((first_vector + doc.vector_count.toNat) % 2 ^ 64) docs

/-- The loop over the documents: the payload and its hasher's state. -/
def fill_documents (arithmetic : RowArithmetic) (codec : RowCodec) (dimension : ℕ) :
    Bytes × UInt32 → List (DocEntry × List SinkCall) → Except LaurusError (Bytes × UInt32)
  | written, [] => .ok written
  | written, (doc, calls) :: docs =>
    match PayloadSink.fill arithmetic codec dimension
        ⟨written.1, written.2, doc.vector_count.toNat⟩ calls with
    | .error e => .error e
    | .ok sink =>
      if sink.remaining ≠ 0 then
        .error (LaurusError.internal (s!"multi-vector payload for doc {doc.doc_id} is shorter " ++
          "than its table entry declares"))
      else fill_documents arithmetic codec dimension (sink.output, sink.hasher) docs

/-- The header that `write_segment_to` writes. -/
def header_of (codec : RowCodec) (dimension : ℕ) (docs : List DocEntry) : Header where
  kind := codec.kind
  dimension
  doc_count := docs.length
  vector_count := (docs.map fun d => d.vector_count.toNat).sum

/-- The header, the parameters and the document table. -/
def meta_bytes (codec : RowCodec) (dimension : ℕ) (docs : List DocEntry) : Bytes :=
  (header_of codec dimension docs).encode ++
    ((codec.binary_params.map BinaryParams.write_block).getD []) ++ table_bytes 0 docs

/-- The footer, from the checksums. -/
def footer_bytes (meta_crc payload_crc : UInt32) : Bytes :=
  Bytes.ofNatLE 4 meta_crc.toNat ++ Bytes.ofNatLE 4 payload_crc.toNat ++ FOOTER_MAGIC ++
    List.replicate 4 0

/-- `write_segment_to`: the file, where `fill` is the calls of each document. -/
def write_segment_to (arithmetic : RowArithmetic) (codec : RowCodec) (dimension : ℕ)
    (docs : List (DocEntry × List SinkCall)) : Except LaurusError Bytes :=
  let entries := docs.map Prod.fst
  if dimension = 0 then
    .error (LaurusError.internal "multi-vector segment dimension must be greater than 0")
  else if codec.binary_params.any fun params => params.dimension ≠ dimension then
    .error (LaurusError.internal "binary parameters do not match the segment dimension")
  else if (entries.zip entries.tail).any fun w => w.2.doc_id ≤ w.1.doc_id then
    .error (LaurusError.internal
      "multi-vector segment documents must be strictly ascending by doc id")
  else if entries.any fun d => d.vector_count = 0 then
    .error (LaurusError.internal
      "multi-vector segment documents must hold at least one vector")
  else
    match fill_documents arithmetic codec dimension ([], 0xFFFFFFFF) docs with
    | .error e => .error e
    | .ok (payload, hasher) =>
      let meta_part := meta_bytes codec dimension entries
      .ok (meta_part ++ payload ++
        footer_bytes (Crc32.checksum meta_part) (hasher ^^^ 0xFFFFFFFF))

/-- `Storage`, but for what it does when it fails. -/
abbrev SegmentFiles := String → Option Bytes

/-- `write_segment`. -/
def write_segment (arithmetic : RowArithmetic) (storage : SegmentFiles) (file_name : String)
    (codec : RowCodec) (dimension : ℕ) (docs : List (DocEntry × List SinkCall)) :
    Except LaurusError Unit × SegmentFiles :=
  let tmp := file_name ++ ".tmp"
  match write_segment_to arithmetic codec dimension docs with
  | .ok file =>
    (.ok (), Function.update (Function.update storage tmp none) file_name (some file))
  | .error e => (.error e, Function.update storage tmp none)

/-! ## Reading -/

/-- `StorageInput`: a file, whether it is lent as a slice, and how far it is read. -/
structure SegmentInput where
  bytes : Bytes
  zero_copy : Bool
  position : ℕ

namespace SegmentInput

/-- `as_slice`. -/
def as_slice (input : SegmentInput) : Option Bytes :=
  if input.zero_copy then some (input.bytes.drop input.position) else none

/-- `read_exact` into a buffer of `n` bytes. -/
def read_exact (input : SegmentInput) (n : ℕ) : Except Fault (Bytes × SegmentInput) :=
  if input.position + n ≤ input.bytes.length then
    .ok ((input.bytes.drop input.position).take n, { input with position := input.position + n })
  else .error (.error (.Io "failed to fill whole buffer"))

/-- `seek` from the start. -/
def seek (input : SegmentInput) (start : ℕ) : SegmentInput := { input with position := start }

end SegmentInput

/-- `&bytes[start..stop]`. -/
def slice (bytes : Bytes) (start stop : ℕ) : Except Fault Bytes :=
  if start ≤ stop ∧ stop ≤ bytes.length then .ok ((bytes.take stop).drop start)
  else .error (.panicked "slice index out of range")

/-- `corrupt`. -/
def corrupt (file_name reason : String) : LaurusError :=
  LaurusError.index s!"multi-vector segment '{file_name}' is corrupted: {reason}"

/-- `check_len`. -/
def check_len (file_name : String) (header : Header) (file_len : ℕ) : Except LaurusError Unit :=
  match header.file_len with
  | some expected =>
    if expected = file_len then .ok ()
    else .error (corrupt file_name s!"expected {expected} bytes, found {file_len}")
  | none => .error (corrupt file_name "declared counts overflow")

/-- The first vector of a document, how many it has and its pool factor. -/
abbrev Span := ℕ × ℕ × UInt32

/-- What `parse_meta`'s loop keeps. -/
structure TableScan where
  doc_ids : List UInt64
  spans : List Span
  next_vector : ℕ

/-- The loop of `parse_meta` over the entries of the table. -/
def parse_entries (file_name : String) : ℕ → Bytes → TableScan → Except LaurusError TableScan
  | 0, _, scan => .ok scan
  | count + 1, bytes, scan =>
    let doc_id := UInt64.ofNat (number_at bytes 0 8)
    let first := number_at bytes 8 8
    let vectors := number_at bytes 16 4
    let pool_factor := UInt32.ofNat (number_at bytes 20 4)
    if scan.doc_ids.getLast?.any fun last => doc_id ≤ last then
      .error (corrupt file_name "document table is not ascending")
    else if first ≠ scan.next_vector ∨ vectors = 0 then
      .error (corrupt file_name "document table spans are not contiguous")
    else
      parse_entries file_name count (bytes.drop DOC_ENTRY_LEN)
        { doc_ids := scan.doc_ids ++ [doc_id]
          spans := scan.spans ++ [(first, vectors, pool_factor)]
          next_vector := (scan.next_vector + vectors) % 2 ^ 64 }

/-- `DocTable`. -/
structure DocTable where
  codec : RowCodec
  doc_ids : List UInt64
  spans : List Span
  payload_crc : ℕ

/-- The codec that `parse_meta` finds. -/
def parse_codec (file_name : String) (header : Header) (meta_part : Bytes) :
    Except LaurusError RowCodec :=
  match RowCodec.plain header.kind with
  | some codec => .ok codec
  | none =>
    match BinaryParams.read_block ((meta_part.drop HEADER_LEN).take header.params_len)
        header.dimension with
    | .ok params => .ok (.Binary params)
    | .error e => .error (corrupt file_name e.toText)

/-- `parse_meta`. -/
def parse_meta (file_name : String) (header : Header) (meta_part footer : Bytes) :
    Except LaurusError DocTable :=
  if (footer.drop 8).take 4 ≠ FOOTER_MAGIC then .error (corrupt file_name "bad footer magic")
  else if (Crc32.checksum meta_part).toNat ≠ number_at footer 0 4 then
    .error (corrupt file_name "header / document table checksum mismatch")
  else
    match parse_codec file_name header meta_part with
    | .error e => .error e
    | .ok codec =>
      let table := meta_part.drop (HEADER_LEN + header.params_len)
      match parse_entries file_name (table.length / DOC_ENTRY_LEN) table ⟨[], [], 0⟩ with
      | .error e => .error e
      | .ok scan =>
        if scan.next_vector ≠ header.vector_count then
          .error (corrupt file_name "document table does not cover the declared vector count")
        else .ok ⟨codec, scan.doc_ids, scan.spans, number_at footer 4 4⟩

/-- `SegmentReader`, whose input is mapped or streamed. -/
structure SegmentReader where
  codec : RowCodec
  dimension : ℕ
  vector_count : ℕ
  doc_ids : List UInt64
  spans : List Span
  payload_offset : ℕ
  payload_crc : ℕ
  input : SegmentInput

namespace SegmentReader

/-- A reader of a header and a table. -/
def of_table (header : Header) (table : DocTable) (table_end : ℕ) (input : SegmentInput) :
    SegmentReader :=
  { codec := table.codec
    dimension := header.dimension
    vector_count := header.vector_count
    doc_ids := table.doc_ids
    spans := table.spans
    payload_offset := table_end
    payload_crc := table.payload_crc
    input }

/-- An error that is returned. -/
def lift {α : Type} : Except LaurusError α → Except Fault α
  | .ok a => .ok a
  | .error e => .error (.error e)

/-- `open` of a slice. -/
def open_mapped (file_name : String) (input : SegmentInput) (bytes : Bytes) (file_len : ℕ) :
    Except Fault SegmentReader := do
  let header ← lift (Header.decode (← slice bytes 0 HEADER_LEN))
  lift (check_len file_name header file_len)
  match header.payload_offset with
  | none => throw (.panicked "checked by check_len")
  | some table_end =>
    let footer ← slice bytes (bytes.length - FOOTER_LEN) bytes.length
    let table ← lift (parse_meta file_name header (← slice bytes 0 table_end) footer)
    return of_table header table table_end input

/-- `open` by reading. -/
def open_streamed (file_name : String) (input : SegmentInput) (file_len : ℕ) :
    Except Fault SegmentReader := do
  let (header_bytes, input) ← input.read_exact HEADER_LEN
  let header ← lift (Header.decode header_bytes)
  lift (check_len file_name header file_len)
  match header.payload_offset with
  | none => throw (.panicked "checked by check_len")
  | some table_end =>
    let (rest, input) ← input.read_exact (table_end - HEADER_LEN)
    let (footer, input) ← (input.seek (file_len - FOOTER_LEN)).read_exact FOOTER_LEN
    let table ← lift (parse_meta file_name header (header_bytes ++ rest) footer)
    return of_table header table table_end input

/-- `open`. -/
def «open» (file_name : String) (bytes : Bytes) (zero_copy : Bool) : Except Fault SegmentReader :=
  let input : SegmentInput := ⟨bytes, zero_copy, 0⟩
  if bytes.length < HEADER_LEN + FOOTER_LEN then
    .error (.error (corrupt file_name "file is shorter than header + footer"))
  else
    match input.as_slice with
    | some view => open_mapped file_name input view bytes.length
    | none => open_streamed file_name input bytes.length

/-- `entries`. -/
def entries (reader : SegmentReader) : List DocEntry :=
  (reader.doc_ids.zip reader.spans).map fun e => ⟨e.1, UInt32.ofNat e.2.2.1, e.2.2.2⟩

/-- `MultiVectorRows` as `rows` returns them. -/
structure FoundRows where
  codec : RowCodec
  dimension : ℕ
  bytes : Bytes

/-- `rows`. -/
def rows (reader : SegmentReader) (doc_id : UInt64) : Except Fault (Option FoundRows) :=
  match (reader.doc_ids.zip reader.spans).lookup doc_id with
  | none => .ok none
  | some (first, count, _) =>
    let row := reader.codec.kind.row_bytes reader.dimension
    let start := (reader.payload_offset + first * row) % 2 ^ 64
    let len := count * row % 2 ^ 64
    match reader.input.as_slice with
    | some bytes => do
      return some ⟨reader.codec, reader.dimension, ← slice bytes start ((start + len) % 2 ^ 64)⟩
    | none => do
      let (bytes, _) ← (reader.input.seek start).read_exact len
      return some ⟨reader.codec, reader.dimension, bytes⟩

/-- The loop of `verify_payload` over a stream, a chunk of at most `1 << 16` at a time. -/
def hash_stream : ℕ → SegmentInput → ℕ → UInt32 → Except Fault UInt32
  | 0, _, _, crc => .ok crc
  | fuel + 1, input, remaining, crc =>
    if remaining = 0 then .ok crc
    else do
      let n := min remaining 65536
      let (bytes, input) ← input.read_exact n
      hash_stream fuel input (remaining - n) (bytes.foldl Crc32.update crc)

/-- The checksum of the payload as it is. -/
def payload_checksum (reader : SegmentReader) (payload_len : ℕ) : Except Fault UInt32 :=
  match reader.input.as_slice with
  | some bytes => do
    return Crc32.checksum
      (← slice bytes reader.payload_offset ((reader.payload_offset + payload_len) % 2 ^ 64))
  | none => do
    let crc ← hash_stream payload_len (reader.input.seek reader.payload_offset) payload_len
      0xFFFFFFFF
    return crc ^^^ 0xFFFFFFFF

/-- `verify_payload`. -/
def verify_payload (reader : SegmentReader) : Except Fault Unit := do
  let actual ← reader.payload_checksum
    (reader.vector_count * reader.codec.kind.row_bytes reader.dimension % 2 ^ 64)
  if actual.toNat ≠ reader.payload_crc then
    throw (.error (LaurusError.index "multi-vector segment payload checksum mismatch"))

end SegmentReader

end MultiVector

end Laurus
