import Laurus.Storage.Model.Structured
import Mathlib.Data.Int.Basic
import Mathlib.Data.List.AList
import Mathlib.Data.List.Sort
import Mathlib.Data.String.Basic

/-!
# Stored fields (`structures/stored_fields.rs`)

The `.docs` part: documents with the values of their fields, in chunks that
LZ4 compresses. A float is its bits. A chunk is decoded at a cursor; what is
reserved for its values, and the detail of a UTF-8 error, are left out. The
date-times of `chrono` and the block format of `lz4_flex` are parameters.
-/

namespace Laurus

/-- `GeoPoint`. -/
structure GeoPoint where
  lat : UInt64
  lon : UInt64
  deriving DecidableEq, Repr

/-- `GeoEcefPoint`. -/
structure GeoEcefPoint where
  x : UInt64
  y : UInt64
  z : UInt64
  deriving DecidableEq, Repr

/-- `DataValue`, over the type of a date-time. -/
inductive DataValue (DateTime : Type)
  | Null
  | Bool (b : Bool)
  | Int64 (num : Int64)
  | Float64 (num : UInt64)
  | Text (text : String)
  | Bytes (data : Bytes) (mime : Option String)
  | Vector (v : List UInt32)
  | DateTime (dt : DateTime)
  | Geo (p : GeoPoint)
  | GeoEcef (p : GeoEcefPoint)
  | Int64Array (arr : List Int64)
  | Float64Array (arr : List UInt64)
  | GeoArray (arr : List GeoPoint)
  | GeoEcefArray (arr : List GeoEcefPoint)
  | DateTimeArray (arr : List DateTime)
  | BoolArray (arr : List Bool)
  | TextArray (arr : List String)
  | BytesArray (arr : List (Bytes × Option String))
  | VectorArray (arr : List (List UInt32))

/-- What is used of `chrono`, with the parts of a date-time its texts depend
on. -/
structure Chrono (DateTime : Type) where
  year : DateTime → ℤ
  nanosecond : DateTime → ℕ
  to_rfc3339 : DateTime → String
  /-- `parse_from_rfc3339`, in UTC; an error has its text. -/
  parse_from_rfc3339 : String → Except String DateTime
  timestamp_micros : DateTime → Int64
  from_timestamp_micros : Int64 → Option DateTime

/-- What is used of `lz4_flex`: an error has its text, `decompress_into` a
buffer of a length gives the bytes that it writes. -/
structure Lz4 where
  compress_into : Bytes → Except String Bytes
  decompress_into : Bytes → ℕ → Except String Bytes

/-- The fields of a document. -/
abbrev StoredFields (DateTime : Type) := AList fun _ : String => DataValue DateTime

/-- The documents of a part. -/
abbrev StoredDocuments (DateTime : Type) := AList fun _ : UInt64 => StoredFields DateTime

namespace StoredFields

/-- `MAGIC`, "SDOC". -/
def MAGIC : Bytes := [0x53, 0x44, 0x4F, 0x43]

def VERSION_MAJOR : UInt8 := 1

def VERSION_MINOR : UInt8 := 0

def CODEC_RAW : UInt8 := 0

def CODEC_LZ4 : UInt8 := 1

def CHUNK_TARGET_BYTES : ℕ := 16 * 1024

def MAX_DOCS_PER_CHUNK : ℕ := 128

def LZ4_MAX_EXPANSION_RATIO : ℕ := 255

def MIN_DOC_RECORD_SIZE : ℕ := 8 + 1

def TAG_TEXT : UInt8 := 0

def TAG_INT64 : UInt8 := 1

def TAG_FLOAT64 : UInt8 := 2

def TAG_BOOL : UInt8 := 3

def TAG_BYTES : UInt8 := 4

def TAG_DATETIME : UInt8 := 5

def TAG_GEO : UInt8 := 6

def TAG_NULL : UInt8 := 7

def TAG_VECTOR : UInt8 := 9

def TAG_INT64_ARRAY : UInt8 := 10

def TAG_FLOAT64_ARRAY : UInt8 := 11

def TAG_GEO_ECEF : UInt8 := 12

def TAG_GEO_ARRAY : UInt8 := 13

def TAG_GEO_ECEF_ARRAY : UInt8 := 14

def TAG_DATETIME_ARRAY : UInt8 := 15

def TAG_BOOL_ARRAY : UInt8 := 16

def TAG_TEXT_ARRAY : UInt8 := 17

def TAG_BYTES_ARRAY : UInt8 := 18

def TAG_VECTOR_ARRAY : UInt8 := 19

/-! ## Encoding -/

/-- What `write_varint` pushes. -/
def push_varint (value : UInt64) : Bytes := Varint.write_varint [] value

/-- Bytes after their length. -/
def push_bytes (bytes : Bytes) : Bytes := push_varint (UInt64.ofNat bytes.length) ++ bytes

/-- A string after its length. -/
def push_str (s : String) : Bytes := push_bytes s.toByteArray.data.toList

def push_u32 (value : UInt32) : Bytes := Bytes.ofNatLE 4 value.toNat

def push_u64 (value : UInt64) : Bytes := Bytes.ofNatLE 8 value.toNat

/-- A MIME type and data: no type is the empty one. -/
def push_blob (blob : Bytes × Option String) : Bytes :=
  push_str (blob.2.getD "") ++ push_bytes blob.1

def push_point (p : GeoPoint) : Bytes := push_u64 p.lat ++ push_u64 p.lon

def push_ecef_point (p : GeoEcefPoint) : Bytes := push_u64 p.x ++ push_u64 p.y ++ push_u64 p.z

/-- The elements of an array after their count. -/
def push_array {α : Type} (push : α → Bytes) (arr : List α) : Bytes :=
  push_varint (UInt64.ofNat arr.length) ++ arr.flatMap push

variable {DateTime : Type} (chrono : Chrono DateTime)

/-- One value, its tag first. -/
def encode_value : DataValue DateTime → Bytes
  | .Text text => TAG_TEXT :: push_str text
  | .Int64 num => TAG_INT64 :: push_u64 num.toUInt64
  | .Float64 num => TAG_FLOAT64 :: push_u64 num
  | .Bool b => [TAG_BOOL, b.toUInt8]
  | .DateTime dt => TAG_DATETIME :: push_str (chrono.to_rfc3339 dt)
  | .Geo p => TAG_GEO :: push_point p
  | .GeoEcef p => TAG_GEO_ECEF :: push_ecef_point p
  | .Bytes data mime => TAG_BYTES :: push_blob (data, mime)
  | .Null => [TAG_NULL]
  | .Vector v => TAG_VECTOR :: push_array push_u32 v
  | .Int64Array arr => TAG_INT64_ARRAY :: push_array (fun num => push_u64 num.toUInt64) arr
  | .Float64Array arr => TAG_FLOAT64_ARRAY :: push_array push_u64 arr
  | .GeoArray arr => TAG_GEO_ARRAY :: push_array push_point arr
  | .GeoEcefArray arr => TAG_GEO_ECEF_ARRAY :: push_array push_ecef_point arr
  | .DateTimeArray arr =>
    TAG_DATETIME_ARRAY :: push_array (fun dt => push_u64 (chrono.timestamp_micros dt).toUInt64) arr
  | .BoolArray arr => TAG_BOOL_ARRAY :: push_array (fun b => [b.toUInt8]) arr
  | .TextArray arr => TAG_TEXT_ARRAY :: push_array push_str arr
  | .BytesArray arr => TAG_BYTES_ARRAY :: push_array push_blob arr
  | .VectorArray arr => TAG_VECTOR_ARRAY :: push_array (push_array push_u32) arr

/-- One field, its name first. -/
def encode_field (fields : StoredFields DateTime) (name : String) : Bytes :=
  push_str name ++ (fields.lookup name).elim [] (encode_value chrono)

/-- The names of the fields, sorted. -/
def sorted_names (fields : StoredFields DateTime) : List String :=
  fields.keys.mergeSort fun a b => decide (a ≤ b)

/-- `encode_document`. -/
def encode_document (doc_id : UInt64) (fields : StoredFields DateTime) : Bytes :=
  push_u64 doc_id ++ push_varint (UInt64.ofNat fields.keys.length) ++
    (sorted_names fields).flatMap (encode_field chrono fields)

end StoredFields

/-! ## Decoding -/

/-- A slice and the cursor into it. -/
structure ByteCursor where
  bytes : Bytes
  cursor : ℕ

/-- A computation that decodes. -/
abbrev Decode := Comp LaurusError ByteCursor

namespace ByteCursor

/-- A returned error as an end of the decoding. -/
def liftE {α : Type} : Except LaurusError α → Decode α
  | .ok a => pure a
  | .error e => throw e

/-- `bytes.len() - *cursor`. -/
def left (c : ByteCursor) : ℕ := c.bytes.length - c.cursor

/-- `bytes.get(cursor..cursor + len)`, the cursor then after it. -/
def read_slice (len : ℕ) (what : String) : Decode Bytes := do
  let c ← get
  if c.cursor + len ≤ c.bytes.length then do
    set { c with cursor := c.cursor + len }
    return (c.bytes.drop c.cursor).take len
  else throw (LaurusError.index s!"{what}: truncated")

/-- `read_u8`. -/
def read_u8 (what : String) : Decode UInt8 := do
  let bytes ← read_slice 1 what
  return bytes.headD 0

/-- `read_u64_le`. -/
def read_u64_le (what : String) : Decode UInt64 := do
  let bytes ← read_slice 8 what
  return UInt64.ofNat (Bytes.toNatLE bytes)

/-- `read_f32_le`, the bits. -/
def read_f32_le (what : String) : Decode UInt32 := do
  let bytes ← read_slice 4 what
  return UInt32.ofNat (Bytes.toNatLE bytes)

/-- `read_f64_le`, the bits. -/
def read_f64_le (what : String) : Decode UInt64 := read_u64_le what

/-- `read_varint`. -/
def read_varint (what : String) : Decode UInt64 := do
  let c ← get
  let (value, cursor) ← liftE (Varint.read_varint c.bytes c.cursor what)
  set { c with cursor }
  return value

/-- `read_len_prefixed_bytes`. -/
def read_len_prefixed_bytes (what : String) : Decode Bytes := do
  let len ← read_varint what
  let c ← get
  let len ← liftE (checked_len_u64 len.toNat c.left what)
  read_slice len what

/-- `String::from_utf8`. -/
def from_utf8 (bytes : Bytes) (what : String) : Except LaurusError String :=
  match String.fromUTF8? ⟨bytes.toArray⟩ with
  | some value => .ok value
  | none => .error (LaurusError.index s!"{what}: invalid utf-8")

/-- `read_len_prefixed_str`. -/
def read_len_prefixed_str (what : String) : Decode String := do
  let bytes ← read_len_prefixed_bytes what
  liftE (from_utf8 bytes what)

/-- A count of elements that take so many bytes at least. -/
def read_capacity (min_stride : ℕ) (what : String) : Decode ℕ := do
  let count ← read_varint what
  let c ← get
  liftE (checked_capacity_u64 count.toNat min_stride c.left what)

/-- The loop over the elements. -/
def read_elements {α : Type} (element : Decode α) : ℕ → Decode (List α)
  | 0 => return []
  | len + 1 => do
    let a ← element
    let arr ← read_elements element len
    return a :: arr

/-- An array: its length, then its elements. -/
def read_array {α : Type} (min_stride : ℕ) (what : String) (element : Decode α) :
    Decode (List α) := do
  let len ← read_capacity min_stride what
  read_elements element len

end ByteCursor

namespace StoredFields

open ByteCursor

def read_bool (what : String) : Decode Bool := do
  let b ← read_u8 what
  return b != 0

def read_i64 (what : String) : Decode Int64 := do
  let num ← read_u64_le what
  return num.toInt64

/-- A MIME type and data: the empty type is none. -/
def read_blob (mime_what data_what : String) : Decode (Bytes × Option String) := do
  let mime ← read_len_prefixed_str mime_what
  let data ← read_len_prefixed_bytes data_what
  return (data, if mime.isEmpty then none else some mime)

def read_point (what : String) : Decode GeoPoint := do
  let lat ← read_f64_le (what ++ " lat")
  let lon ← read_f64_le (what ++ " lon")
  return ⟨lat, lon⟩

def read_ecef_point (what : String) : Decode GeoEcefPoint := do
  let x ← read_f64_le (what ++ " x")
  let y ← read_f64_le (what ++ " y")
  let z ← read_f64_le (what ++ " z")
  return ⟨x, y, z⟩

variable {DateTime : Type} (chrono : Chrono DateTime)

/-- The date-time of a text. -/
def parsed (s : String) : Except LaurusError DateTime :=
  match chrono.parse_from_rfc3339 s with
  | .ok dt => .ok dt
  | .error e => .error (LaurusError.index s!"Failed to parse DateTime: {e}")

/-- The date-time of its microseconds. -/
def at_micros (micros : Int64) : Except LaurusError DateTime :=
  match chrono.from_timestamp_micros micros with
  | some dt => .ok dt
  | none => .error (LaurusError.index
      s!"stored DateTimeArray element out of range: {micros} µs")

def read_date_time (what : String) : Decode DateTime := do
  let s ← read_len_prefixed_str what
  liftE (parsed chrono s)

def read_micros (what : String) : Decode DateTime := do
  let micros ← read_i64 what
  liftE (at_micros chrono micros)

/-- The value behind a tag. -/
def decode_value (tag : UInt8) : Decode (DataValue DateTime) :=
  if tag = TAG_TEXT then .Text <$> read_len_prefixed_str "stored Text field"
  else if tag = TAG_INT64 then .Int64 <$> read_i64 "stored Int64 field"
  else if tag = TAG_FLOAT64 then .Float64 <$> read_f64_le "stored Float64 field"
  else if tag = TAG_BOOL then .Bool <$> read_bool "stored Bool field"
  else if tag = TAG_BYTES then
    (fun blob => .Bytes blob.1 blob.2) <$>
      read_blob "stored Bytes field mime" "stored Bytes field data"
  else if tag = TAG_DATETIME then .DateTime <$> read_date_time chrono "stored DateTime field"
  else if tag = TAG_GEO then .Geo <$> read_point "stored Geo field"
  else if tag = TAG_GEO_ECEF then .GeoEcef <$> read_ecef_point "stored GeoEcef field"
  else if tag = TAG_NULL then pure .Null
  else if tag = TAG_VECTOR then
    .Vector <$> read_array 4 "stored Vector field length"
      (read_f32_le "stored Vector field element")
  else if tag = TAG_INT64_ARRAY then
    .Int64Array <$> read_array 8 "stored Int64Array field length"
      (read_i64 "stored Int64Array field element")
  else if tag = TAG_FLOAT64_ARRAY then
    .Float64Array <$> read_array 8 "stored Float64Array field length"
      (read_f64_le "stored Float64Array field element")
  else if tag = TAG_GEO_ARRAY then
    .GeoArray <$> read_array 16 "stored GeoArray field length" (read_point "stored GeoArray field")
  else if tag = TAG_GEO_ECEF_ARRAY then
    .GeoEcefArray <$> read_array 24 "stored GeoEcefArray field length"
      (read_ecef_point "stored GeoEcefArray field")
  else if tag = TAG_DATETIME_ARRAY then
    .DateTimeArray <$> read_array 8 "stored DateTimeArray field length"
      (read_micros chrono "stored DateTimeArray field element")
  else if tag = TAG_BOOL_ARRAY then
    .BoolArray <$> read_array 1 "stored BoolArray field length"
      (read_bool "stored BoolArray field element")
  else if tag = TAG_TEXT_ARRAY then
    .TextArray <$> read_array 1 "stored TextArray field length"
      (read_len_prefixed_str "stored TextArray field element")
  else if tag = TAG_BYTES_ARRAY then
    .BytesArray <$> read_array 2 "stored BytesArray field length"
      (read_blob "stored BytesArray field mime" "stored BytesArray field data")
  else if tag = TAG_VECTOR_ARRAY then
    .VectorArray <$> read_array 1 "stored VectorArray field length"
      (read_array 4 "stored VectorArray element length"
        (read_f32_le "stored VectorArray element value"))
  else throw (LaurusError.index s!"Unknown field type tag: {tag}")

/-- The loop over the fields; a name that is repeated has its last value. -/
def decode_fields : ℕ → StoredFields DateTime → Decode (StoredFields DateTime)
  | 0, fields => return fields
  | field_count + 1, fields => do
    let name ← read_len_prefixed_str "stored-fields field name"
    let tag ← read_u8 "stored-fields type tag"
    let value ← decode_value chrono tag
    decode_fields field_count (fields.insert name value)

/-- `decode_document`. -/
def decode_document : Decode (UInt64 × StoredFields DateTime) := do
  let doc_id ← read_u64_le "stored-fields document id"
  let field_count ← read_capacity 2 "stored-fields field count"
  let fields ← decode_fields chrono field_count ∅
  return (doc_id, fields)

/-- The loop over the documents of a chunk. -/
def decode_documents : ℕ → StoredDocuments DateTime → Decode (StoredDocuments DateTime)
  | 0, documents => return documents
  | chunk_doc_count + 1, documents => do
    let (doc_id, fields) ← decode_document chrono
    decode_documents chunk_doc_count (documents.insert doc_id fields)

end StoredFields

/-! ## The writer -/

namespace StoredFieldsWriter

open StructWriter StoredFields

variable {DateTime : Type} (chrono : Chrono DateTime) (lz4 : Lz4) (crc32 : Bytes → UInt32)

/-- The chunk as it is compressed. -/
def compressed (uncompressed : Bytes) : Except LaurusError Bytes :=
  match lz4.compress_into uncompressed with
  | .ok payload => .ok payload
  | .error e => .error (LaurusError.index s!"stored-fields LZ4 compression failed: {e}")

/-- The codec of a chunk and its payload: compression never makes it bigger. -/
def choose (uncompressed compressed : Bytes) : UInt8 × Bytes :=
  if compressed.length < uncompressed.length then (CODEC_LZ4, compressed)
  else (CODEC_RAW, uncompressed)

/-- A compressed chunk, written. -/
def write_chunk (uncompressed : Bytes) (doc_count : ℕ) (chosen : UInt8 × Bytes) : Write Unit := do
  write_varint (UInt64.ofNat doc_count)
  write_u8 chosen.1
  write_varint (UInt64.ofNat uncompressed.length)
  write_varint (UInt64.ofNat chosen.2.length)
  write_u32 (crc32 chosen.2)
  write_raw chosen.2

/-- `flush_chunk`. -/
def flush_chunk (uncompressed : Bytes) (doc_count : ℕ) : Write Unit :=
  match compressed lz4 uncompressed with
  | .ok bytes => write_chunk crc32 uncompressed doc_count (choose uncompressed bytes)
  | .error e => throw e

/-- The loop over the sorted documents, with the chunk so far. -/
def write_documents : Bytes → ℕ → List (UInt64 × StoredFields DateTime) → Write Unit
  | _, _, [] => return ()
  | chunk_buf, chunk_doc_count, doc :: docs =>
    let chunk_buf := chunk_buf ++ encode_document chrono doc.1 doc.2
    let chunk_doc_count := chunk_doc_count + 1
    if docs.isEmpty ∨ CHUNK_TARGET_BYTES ≤ chunk_buf.length ∨
        MAX_DOCS_PER_CHUNK ≤ chunk_doc_count then do
      flush_chunk lz4 crc32 chunk_buf chunk_doc_count
      write_documents [] 0 docs
    else write_documents chunk_buf chunk_doc_count docs

/-- The documents by ascending id. -/
def order (docs : List (UInt64 × StoredFields DateTime)) : List (UInt64 × StoredFields DateTime) :=
  docs.mergeSort fun a b => decide (a.1 ≤ b.1)

/-- `write_to`. -/
def write_to (docs : List (UInt64 × StoredFields DateTime)) : Write Unit := do
  write_raw MAGIC
  write_raw [VERSION_MAJOR, VERSION_MINOR]
  write_varint (UInt64.ofNat docs.length)
  write_documents chrono lz4 crc32 [] 0 (order docs)

/-- The part, written and closed. -/
def file (docs : List (UInt64 × StoredFields DateTime)) : Except LaurusError Bytes := do
  let ((), w) ← write_to chrono lz4 crc32 docs StructWriter.new
  w.close crc32

end StoredFieldsWriter

/-! ## The reader -/

namespace StoredFieldsReader

open StructReader StoredFields

variable {DateTime : Type} (chrono : Chrono DateTime) (lz4 : Lz4) (crc32 : Bytes → UInt32)

/-- A check with its error. -/
def require (condition : Prop) [Decidable condition] (text : String) : Read Unit :=
  if condition then pure () else throw (Fault.error (LaurusError.index text))

/-- `read_header`. -/
def read_header : Read UInt64 := do
  let magic ← read_raw 4
  require (magic = MAGIC)
    ("Unsupported stored-fields format (expected SDOC). Pre-release format changes do not " ++
      "support older revisions; rebuild the index.")
  let version_major ← read_u8
  let _version_minor ← read_u8
  require (version_major = VERSION_MAJOR)
    (s!"Unsupported stored-fields version: {version_major} (expected {VERSION_MAJOR}). " ++
      "Pre-release format changes do not support older revisions; rebuild the index.")
  read_varint

/-- The bytes of a chunk: its payload, or what it decompresses to. -/
def chunk_bytes (codec : UInt8) (payload : Bytes) (uncompressed_size : ℕ) :
    Except LaurusError Bytes :=
  if codec = CODEC_RAW then .ok payload
  else if codec = CODEC_LZ4 then
    match lz4.decompress_into payload uncompressed_size with
    | .error e => .error (LaurusError.index
        s!"stored-fields chunk: LZ4 decompression failed: {e}")
    | .ok written =>
      if written.length ≠ uncompressed_size then .error (LaurusError.index
        (s!"stored-fields chunk: expected {uncompressed_size} decompressed bytes, got " ++
          s!"{written.length} — segment is corrupted"))
      else .ok written
  else .error (LaurusError.index s!"stored-fields chunk: unknown codec {codec}")

/-- One chunk, of a file with `available` bytes from its start on: how many
documents it has, and its bytes. -/
def read_chunk (available : ℕ) : Read (ℕ × Bytes) := do
  let chunk_doc_count ← read_varint
  let codec ← read_u8
  let uncompressed_size ← read_varint
  let payload_size ← read_varint
  let stored_crc ← read_u32
  let payload_size ← Read.liftE
    (checked_len_u64 payload_size.toNat available "stored-fields chunk payload")
  -- the product saturates
  let max_uncompressed := min (payload_size * LZ4_MAX_EXPANSION_RATIO) (2 ^ 64 - 1)
  require (uncompressed_size.toNat ≤ max max_uncompressed payload_size)
    (s!"stored-fields chunk: declares {uncompressed_size} uncompressed bytes, impossible for a " ++
      s!"{payload_size}-byte payload — segment is corrupted")
  let uncompressed_size ← Read.liftE
    (checked_usize uncompressed_size.toNat "stored-fields chunk uncompressed size")
  let chunk_doc_count ← Read.liftE (checked_capacity_u64 chunk_doc_count.toNat
    MIN_DOC_RECORD_SIZE uncompressed_size "stored-fields chunk doc count")
  let payload ← read_raw payload_size
  require (crc32 payload = stored_crc)
    "stored-fields chunk: CRC-32 mismatch — segment is corrupted"
  let bytes ← Read.liftE (chunk_bytes lz4 codec payload uncompressed_size)
  return (chunk_doc_count, bytes)

/-- The documents of a chunk, put to the others. -/
def insert_chunk (chunk : ℕ × Bytes) (documents : StoredDocuments DateTime) :
    Except LaurusError (StoredDocuments DateTime) :=
  (decode_documents chrono chunk.1 documents ⟨chunk.2, 0⟩).map Prod.fst

/-- The loop over the chunks. A chunk takes a byte at least, so there are no
more turns than bytes. -/
def load_chunks (total_doc_count : ℕ) : ℕ → ℕ → StoredDocuments DateTime →
    Read (ℕ × StoredDocuments DateTime)
  | 0, _, _ => throw (Fault.panicked "load: more chunks than bytes")
  | turns + 1, decoded_count, documents =>
    if decoded_count < total_doc_count then do
      let r ← get
      let chunk ← read_chunk lz4 crc32 r.remaining
      let documents ← Read.liftE (insert_chunk chrono chunk documents)
      load_chunks total_doc_count turns (decoded_count + chunk.1) documents
    else return (decoded_count, documents)

/-- `load`. -/
def load : Read (StoredDocuments DateTime) := do
  let total_doc_count ← read_header
  let r ← get
  let (decoded_count, documents) ←
    load_chunks chrono lz4 crc32 total_doc_count.toNat (r.remaining + 1) 0 ∅
  require (decoded_count = total_doc_count.toNat)
    (s!"stored-fields: header declares {total_doc_count} documents but chunks totalled " ++
      s!"{decoded_count} — segment is corrupted")
  expect_checksum crc32 "stored fields"
  return documents

end StoredFieldsReader

end Laurus
