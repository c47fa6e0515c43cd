import Laurus.Reader.Model.Segment
import Laurus.Storage.Model.Files
import Laurus.Storage.Model.Structured
import Mathlib.Data.List.Dedup
import Mathlib.Data.List.Sort
import Mathlib.Data.String.Basic

/-!
# Field lengths of a segment (`structures/norms.rs`)

The table of the lengths that a byte stands for, `NormsBuilder` with what
it writes into the `.norms` part, and the two readers of the part. A map is
an `AList`, a `BTreeMap` one that is gone through by ascending key; the
averages are exact, over any field `𝕜`.
-/

namespace Laurus

/-! ## The table -/

def EXACT_LENGTH_BOUND : ℕ := 40

def STEPS_PER_OCTAVE : ℕ := 8

/-- The second loop of `build_norm_table`, from its entry `k`. -/
def norm_steps : ℕ → ℕ → UInt32 → List UInt32
  | 0, _, _ => []
  | turns + 1, k, value =>
    value :: norm_steps turns (k + 1) (value + 2 * ((1 : UInt32) <<< UInt32.ofNat (k / STEPS_PER_OCTAVE)))

/-- `build_norm_table`. -/
def NORM_TABLE : List UInt32 :=
  (List.range EXACT_LENGTH_BOUND).map UInt32.ofNat ++
    norm_steps (256 - EXACT_LENGTH_BOUND) 0 (UInt32.ofNat EXACT_LENGTH_BOUND)

/-- `length_to_norm`; the binary search ends where the table passes `len`. -/
def length_to_norm (len : UInt32) : UInt8 :=
  if len < UInt32.ofNat EXACT_LENGTH_BOUND then len.toUInt8
  else
    let i := NORM_TABLE.findIdx fun value => decide (len ≤ value)
    if NORM_TABLE[i]? = some len then UInt8.ofNat i else UInt8.ofNat (i - 1)

/-- `norm_to_length`; every byte has an entry. -/
def norm_to_length (norm : UInt8) : UInt32 := NORM_TABLE.getD norm.toNat 0

/-! ## The writer -/

/-- The `field_lengths` of a `BufferedDocument`. -/
abbrev FieldLengths := AList fun _ : String => UInt32

/-- The lengths of one field, by document. -/
abbrev DocLengths := AList fun _ : UInt64 => UInt32

/-- `is_contiguous`. -/
def is_contiguous (sorted_doc_ids : List UInt64) : Bool :=
  match sorted_doc_ids.head?, sorted_doc_ids.getLast? with
  | some min, some max => max - min + 1 == UInt64.ofNat sorted_doc_ids.length
  | _, _ => true

/-- `exact_avg_length`. -/
def exact_avg_length (𝕜 : Type) [Field 𝕜] (lengths : DocLengths) : 𝕜 :=
  if lengths.keys.isEmpty then 0
  else
    ((lengths.entries.map fun entry => entry.2.toNat).sum : 𝕜) / (lengths.keys.length : 𝕜)

/-- `NormsBuilder`, the averages of the fields left to where they are asked
for. -/
structure NormsBuilder where
  doc_ids : List UInt64
  fields : AList fun _ : String => DocLengths

/-- What the slot loop of `write_to` fills. -/
structure SlotFill where
  norms : List UInt8
  presence : Option (List UInt8)
  sum_length : UInt64
  min_length : UInt32
  max_length : UInt32

/-- What the loop starts from. -/
def SlotFill.start (n : ℕ) (all_present : Bool) : SlotFill where
  norms := List.replicate n 0
  presence := if all_present then none else some (List.replicate ((n + 7) / 8) 0)
  sum_length := 0
  min_length := UInt32.ofNat (2 ^ 32 - 1)
  max_length := 0

/-- One turn of the slot loop. -/
def SlotFill.turn (lengths : DocLengths) (fill : SlotFill) (slot : UInt64 × ℕ) : SlotFill :=
  match lengths.lookup slot.1 with
  | none => fill
  | some len =>
    { norms := fill.norms.set slot.2 (length_to_norm len)
      presence := fill.presence.map fun bits =>
        bits.modify (slot.2 / 8) fun byte => byte ||| 1 <<< UInt8.ofNat (slot.2 % 8)
      sum_length := fill.sum_length + len.toUInt64
      min_length := min fill.min_length len
      max_length := max fill.max_length len }

namespace NormsBuilder

/-- One length, in the map of its field. -/
def insert_length (doc_id : UInt64) (fields : AList fun _ : String => DocLengths)
    (entry : Sigma fun _ : String => UInt32) : AList fun _ : String => DocLengths :=
  fields.insert entry.1 (((fields.lookup entry.1).getD ∅).insert doc_id entry.2)

/-- The lengths of one document. -/
def insert_document (fields : AList fun _ : String => DocLengths) (doc : UInt64 × FieldLengths) :
    AList fun _ : String => DocLengths :=
  doc.2.entries.foldl (insert_length doc.1) fields

/-- `from_buffered`. -/
def from_buffered (docs : List (UInt64 × FieldLengths)) : NormsBuilder where
  doc_ids := ((docs.map Prod.fst).insertionSort (· ≤ ·)).dedup
  fields := docs.foldl insert_document ∅

/-- `decoded_length`. -/
def decoded_length (b : NormsBuilder) (doc_id : UInt64) (field : String) : Option UInt32 := do
  let lengths ← b.fields.lookup field
  let len ← lengths.lookup doc_id
  return norm_to_length (length_to_norm len)

/-- `avg_length_f32`. -/
def avg_length (𝕜 : Type) [Field 𝕜] (b : NormsBuilder) (field : String) : 𝕜 :=
  match b.fields.lookup field with
  | some lengths => exact_avg_length 𝕜 lengths
  | none => 0

/-- The names of the fields, in the order of the map. -/
def field_names (b : NormsBuilder) : List String :=
  b.fields.keys.mergeSort fun a b => decide (a ≤ b)

/-- The slot loop over one field. -/
def fill_slots (b : NormsBuilder) (lengths : DocLengths) : SlotFill :=
  let n := b.doc_ids.length
  b.doc_ids.zipIdx.foldl (SlotFill.turn lengths) (SlotFill.start n (lengths.keys.length == n))

end NormsBuilder

/-- `MAGIC`, "NRMS". -/
def NORMS_MAGIC : Bytes := [0x4E, 0x52, 0x4D, 0x53]

def NORMS_VERSION : Bytes := [1, 0]

def CODEC_TANTIVY_TABLE_V1 : UInt8 := 0

def FLAG_SLOT_MAP_CONTIGUOUS : UInt8 := 1

def ENCODING_ALL_PRESENT : UInt8 := 0

def ENCODING_PRESENCE_BITMAP : UInt8 := 1

def MIN_FIELD_RECORD_SIZE : ℕ := 1 + 1 + 1 + 1 + 1 + 1

namespace NormsBuilder

open StructWriter

/-- The deltas of a sparse slot map. -/
def write_deltas (previous : UInt64) : List UInt64 → Write Unit
  | [] => pure ()
  | doc_id :: doc_ids => do
    write_varint (doc_id - previous - 1)
    write_deltas doc_id doc_ids

/-- The slot map, of documents with gaps. -/
def write_slot_map (b : NormsBuilder) : Write Unit :=
  if is_contiguous b.doc_ids then pure ()
  else write_deltas (b.doc_ids.headD 0) b.doc_ids.tail

/-- The encoding of a field, and the bits where some documents lack it. -/
def write_presence (presence : Option (List UInt8)) : Write Unit := do
  write_u8 (if presence.isSome then ENCODING_PRESENCE_BITMAP else ENCODING_ALL_PRESENT)
  match presence with
  | some bits => write_raw bits
  | none => pure ()

/-- The record of one field. -/
def write_field (b : NormsBuilder) (name : String) : Write Unit := do
  let lengths := (b.fields.lookup name).getD ∅
  let fill := b.fill_slots lengths
  let min_length := if lengths.keys.isEmpty then 0 else fill.min_length
  write_string name
  write_varint (UInt64.ofNat lengths.keys.length)
  write_varint fill.sum_length
  write_varint min_length.toUInt64
  write_varint fill.max_length.toUInt64
  write_presence fill.presence
  write_raw fill.norms

/-- `write_to`. -/
def write_to (b : NormsBuilder) : Write Unit := do
  write_raw NORMS_MAGIC
  write_raw NORMS_VERSION
  write_u8 CODEC_TANTIVY_TABLE_V1
  write_u8 (if is_contiguous b.doc_ids then FLAG_SLOT_MAP_CONTIGUOUS else 0)
  write_varint (UInt64.ofNat b.doc_ids.length)
  write_u64 (b.doc_ids.head?.getD 0)
  write_u64 (b.doc_ids.getLast?.getD 0)
  write_varint (UInt64.ofNat b.field_names.length)
  b.write_slot_map
  b.field_names.forM b.write_field

/-- The part, written and closed. -/
def file (crc32 : Bytes → UInt32) (b : NormsBuilder) : Except LaurusError Bytes := do
  let ((), w) ← b.write_to StructWriter.new
  w.close crc32

end NormsBuilder

/-! ## The readers -/

/-- `NormsHeader`. -/
structure NormsHeader where
  contiguous : Bool
  doc_count : ℕ
  min_doc_id : UInt64
  max_doc_id : UInt64
  num_fields : ℕ

/-- `{flags:#010b}`. -/
def binary_text (flags : UInt8) : String :=
  "0b" ++ String.ofList ((List.range 8).reverse.map fun i => if flags.toNat.testBit i then '1' else '0')

namespace NormsHeader

open StructReader

/-- A check with its error. -/
def require (condition : Prop) [Decidable condition] (text : String) : Read Unit :=
  if condition then pure () else throw (Fault.error (LaurusError.index text))

/-- What is checked of the documents, where there are some. -/
def check_documents (contiguous : Bool) (doc_count min_doc_id max_doc_id : UInt64)
    (available : ℕ) : Read Unit :=
  if doc_count = 0 then pure ()
  else if contiguous then
    require (min_doc_id.toNat + (doc_count.toNat - 1) = max_doc_id.toNat)
      (s!".norms header declares {doc_count} contiguous doc ids from {min_doc_id}, which " ++
        s!"do not end at max_doc_id {max_doc_id} — segment is corrupted")
  else do
    let _ ← Read.liftE (checked_capacity_u64 (doc_count.toNat - 1) 1 available "doc_count")

/-- `NormsHeader::read`. -/
def read : Read NormsHeader := do
  let magic ← read_raw 4
  require (magic = NORMS_MAGIC) "Invalid .norms file format"
  let version ← read_raw 2
  require (version.head? = NORMS_VERSION.head?)
    s!"Unsupported .norms version: {version.getD 0 0}.{version.getD 1 0}"
  let codec_id ← read_u8
  require (codec_id = CODEC_TANTIVY_TABLE_V1)
    s!"Unknown .norms codec {codec_id} — segment is corrupted"
  let flags ← read_u8
  require (flags &&& ~~~FLAG_SLOT_MAP_CONTIGUOUS = 0)
    s!"Unknown .norms flags {binary_text flags} — segment is corrupted"
  let contiguous := flags &&& FLAG_SLOT_MAP_CONTIGUOUS != 0
  let doc_count ← read_varint
  require (doc_count.toNat < 2 ^ 32)
    (s!"doc_count: header declares {doc_count} documents, more than a segment can " ++
      "hold — segment is corrupted")
  let min_doc_id ← read_u64
  let max_doc_id ← read_u64
  let num_fields ← read_varint
  let r ← get
  let num_fields ← Read.liftE
    (checked_capacity_u64 num_fields.toNat MIN_FIELD_RECORD_SIZE r.remaining "num_fields")
  check_documents contiguous doc_count min_doc_id max_doc_id r.remaining
  return { contiguous, doc_count := doc_count.toNat, min_doc_id, max_doc_id, num_fields }

end NormsHeader

open StructReader in
/-- The loop of `read_sparse_ids`, with the last document. -/
def read_sparse_deltas (prev : UInt64) : ℕ → Read (List UInt64 × UInt64)
  | 0 => return ([], prev)
  | count + 1 => do
    let delta ← read_varint
    -- the sum with one wraps, the sum with `prev` is checked
    let next := prev.toNat + (delta + 1).toNat
    if 2 ^ 64 ≤ next then
      throw (Fault.error (LaurusError.index
        "doc id overflow in .norms slot map — segment is corrupted"))
    let (ids, last) ← read_sparse_deltas (UInt64.ofNat next) count
    return (UInt64.ofNat next :: ids, last)

/-- `read_sparse_ids`, the documents in slot order. -/
def read_sparse_ids (header : NormsHeader) : Read (List UInt64) := do
  let (ids, last) ← read_sparse_deltas header.min_doc_id (header.doc_count - 1)
  if last ≠ header.max_doc_id then
    throw (Fault.error (LaurusError.index
      ".norms slot map does not end at the header's max_doc_id — segment is corrupted"))
  return header.min_doc_id :: ids

/-- The documents behind a header. -/
def read_header_ids (header : NormsHeader) : Read (Finset ℕ) :=
  if header.doc_count = 0 then return ∅
  else if header.contiguous then
    return Finset.Icc header.min_doc_id.toNat header.max_doc_id.toNat
  else do
    let ids ← read_sparse_ids header
    return (ids.map UInt64.toNat).toFinset

/-- `read_doc_ids_from`. -/
def read_doc_ids_from (file : Bytes) : Except Fault (Finset ℕ) :=
  match (NormsHeader.read >>= read_header_ids) (StructReader.new file) with
  | .ok (ids, _) => .ok ids
  | .error e => .error e

/-- `NormsField`, as it is loaded. -/
structure NormColumn where
  present_count : UInt64
  sum_length : UInt64
  min_length : UInt32
  max_length : UInt32
  presence : Option Bytes
  norms : Bytes

/-- The `FieldStats` of one part. -/
structure NormStats (𝕜 : Type) where
  doc_count : ℕ
  avg_length : 𝕜
  min_length : ℕ
  max_length : ℕ

/-- `NormsReader`, as it is loaded. -/
structure LoadedNorms where
  slot_map : SlotMap
  columns : List NormColumn
  column_index : AList fun _ : String => ℕ

namespace LoadedNorms

open StructReader

/-- The encoding of a field, and the bits. -/
def read_presence (doc_count : ℕ) (name : String) : Read (Option Bytes) := do
  let encoding ← read_u8
  if encoding = ENCODING_ALL_PRESENT then return none
  else if encoding = ENCODING_PRESENCE_BITMAP then do
    let r ← get
    let nbytes ← Read.liftE
      (checked_len_u64 ((doc_count + 7) / 8) r.remaining "presence bitmap")
    let bits ← read_raw nbytes
    return some bits
  else throw (Fault.error (LaurusError.index
    s!"Unknown .norms encoding {encoding} for field {name} — segment is corrupted"))

/-- The record of one field. -/
def read_field (doc_count : ℕ) : Read (String × NormColumn) := do
  let name ← read_string
  let present_count ← read_varint
  let sum_length ← read_varint
  let min_length ← read_varint
  let max_length ← read_varint
  let presence ← read_presence doc_count name
  let r ← get
  let norm_len ← Read.liftE (checked_len_u64 doc_count r.remaining "norm column")
  let norms ← read_raw norm_len
  return (name, {
    present_count
    sum_length
    min_length := min_length.toUInt32
    max_length := max_length.toUInt32
    presence
    norms })

/-- The loop over the field directory. -/
def read_fields (doc_count : ℕ) : ℕ → Read (List (String × NormColumn))
  | 0 => return []
  | num_fields + 1 => do
    let field ← read_field doc_count
    let fields ← read_fields doc_count num_fields
    return field :: fields

/-- A name that is repeated resolves to its last column. -/
def index_column (column_index : AList fun _ : String => ℕ) (field : (String × NormColumn) × ℕ) :
    AList fun _ : String => ℕ :=
  column_index.insert field.1.1 field.2

/-- The slot map of a header. -/
def read_slot_map (header : NormsHeader) : Read SlotMap :=
  if header.contiguous then
    return SlotMap.contiguous header.min_doc_id.toNat header.doc_count
  else if 0 < header.doc_count then do
    let ids ← read_sparse_ids header
    return SlotMap.sparse (ids.map UInt64.toNat)
  else return SlotMap.sparse []

/-- The slot map and the columns behind a header. -/
def read_body (header : NormsHeader) : Read LoadedNorms := do
  let slot_map ← read_slot_map header
  let fields ← read_fields header.doc_count header.num_fields
  return { slot_map, columns := fields.map Prod.snd,
           column_index := fields.zipIdx.foldl index_column ∅ }

/-- `NormsReader::load`, of the opened file. -/
def load_file (crc32 : Bytes → UInt32) : Read LoadedNorms := do
  let norms ← NormsHeader.read >>= read_body
  expect_checksum crc32 "norms"
  return norms

/-- `NormsReader::load`. -/
def load (crc32 : Bytes → UInt32) (s : Storage) (segment_id : String) :
    Except Fault (Option LoadedNorms) :=
  match AList.lookup (segment_id ++ ".norms") s with
  | none => .ok none
  | some file =>
    match load_file crc32 (StructReader.new file) with
    | .ok (norms, _) => .ok (some norms)
    | .error e => .error e

/-- `column`. -/
def column (norms : LoadedNorms) (field : String) : Option ℕ := norms.column_index.lookup field

/-- Whether the bit of a slot is set. -/
def bit_of (bits : Bytes) (slot : ℕ) : Bool :=
  match bits[slot / 8]? with
  | some byte => (byte >>> UInt8.ofNat (slot % 8)) &&& 1 == 1
  | none => false

/-- Whether the column has a length in a slot. -/
def present (f : NormColumn) (slot : ℕ) : Bool :=
  match f.presence with
  | none => true
  | some bits => bit_of bits slot

/-- `column_length`. -/
def column_length (norms : LoadedNorms) (column : ℕ) (doc_id : UInt64) : Option UInt32 := do
  let f ← norms.columns[column]?
  let slot ← norms.slot_map.slot_of doc_id.toNat
  if present f slot then f.norms[slot]?.map norm_to_length else none

/-- `field_length`. -/
def field_length (norms : LoadedNorms) (doc_id : UInt64) (field : String) : Option UInt32 := do
  let column ← norms.column field
  norms.column_length column doc_id

/-- `field_stats`. -/
def field_stats (𝕜 : Type) [Field 𝕜] (norms : LoadedNorms) (field : String) :
    Option (NormStats 𝕜) := do
  let column ← norms.column field
  let f ← norms.columns[column]?
  return { doc_count := f.present_count.toNat
           avg_length := if 0 < f.present_count.toNat
             then (f.sum_length.toNat : 𝕜) / (f.present_count.toNat : 𝕜) else 0
           min_length := f.min_length.toNat
           max_length := f.max_length.toNat }

end LoadedNorms

end Laurus
