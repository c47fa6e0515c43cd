import Laurus.Common.Run
import Laurus.Storage.Model.Files
import Laurus.Storage.Model.Structured
import Mathlib.Data.Finset.Sort
import Mathlib.Data.UInt
import Mathlib.Order.Interval.Finset.Defs

/-!
# The deletion manager (`maintenance/deletion.rs`, `DeletionManager`)

The manager's in-memory bitmaps, its optional deletion log and its dirty
set, over a storage whose writes may fail. Each operation takes the
faults its writes meet and returns its result together with the state it
leaves, which is where a half-done operation shows.
-/

namespace Laurus

/-!
## The deletion bitmap (`maintenance/deletion.rs`, `DeletionBitmap`)

The bitmap's fields, its operations, and its file format in the four
versions the reader accepts. The set is a `Finset`; the Roaring payload
of the current version is the parameter `Roaring`, a pair of functions
the third-party `roaring` crate provides. The wall clock is an argument.
-/

/-- `roaring::RoaringTreemap`'s serialization. -/
structure Roaring where
  serialize_into : Finset UInt64 → Bytes
  deserialize_from : Bytes → Except String (Finset UInt64)

/-- What the bitmap relies on: a serialized set deserializes. -/
def Roaring.Lawful (roaring : Roaring) : Prop :=
  ∀ docs, roaring.deserialize_from (roaring.serialize_into docs) = .ok docs

/-- `DeletionBitmap`. -/
structure DeletionBitmap where
  segment_id : String
  deleted_docs : Finset UInt64
  total_docs : UInt64
  min_doc_id : UInt64
  max_doc_id : UInt64
  deleted_count : UInt64
  last_modified : UInt64
  version : UInt64
  deriving DecidableEq

namespace DeletionBitmap

/-- `DeletionBitmap::new`, at `now`. -/
def new (segment_id : String) (min_doc_id max_doc_id now : UInt64) : DeletionBitmap where
  segment_id := segment_id
  deleted_docs := ∅
  total_docs := if min_doc_id ≤ max_doc_id then max_doc_id - min_doc_id + 1 else 0
  min_doc_id := min_doc_id
  max_doc_id := max_doc_id
  deleted_count := 0
  last_modified := now
  version := 1

/-- The range check's error. -/
def out_of_range (b : DeletionBitmap) (doc_id : UInt64) : LaurusError :=
  LaurusError.index
    (s!"Document ID {doc_id} is out of range [{b.min_doc_id}, {b.max_doc_id}] " ++
      s!"for segment {b.segment_id}")

/-- `delete_document`. -/
def delete_document (b : DeletionBitmap) (doc_id now : UInt64) :
    Except LaurusError (Bool × DeletionBitmap) :=
  if doc_id < b.min_doc_id ∨ b.max_doc_id < doc_id then .error (b.out_of_range doc_id)
  else if doc_id ∈ b.deleted_docs then .ok (false, b)
  else .ok (true,
    { b with
      deleted_docs := insert doc_id b.deleted_docs
      deleted_count := b.deleted_count + 1
      last_modified := now
      version := b.version + 1 })

/-- `undelete_document`. -/
def undelete_document (b : DeletionBitmap) (doc_id now : UInt64) :
    Except LaurusError (Bool × DeletionBitmap) :=
  if doc_id < b.min_doc_id ∨ b.max_doc_id < doc_id then .error (b.out_of_range doc_id)
  else if doc_id ∈ b.deleted_docs then .ok (true,
    { b with
      deleted_docs := b.deleted_docs.erase doc_id
      deleted_count := b.deleted_count - 1
      last_modified := now
      version := b.version + 1 })
  else .ok (false, b)

/-- `is_deleted`. -/
def is_deleted (b : DeletionBitmap) (doc_id : UInt64) : Bool := doc_id ∈ b.deleted_docs

/-- `snapshot`. -/
def snapshot (b : DeletionBitmap) : DeletionBitmap :=
  { b with deleted_count := UInt64.ofNat b.deleted_docs.card }

/-- `difference`, at `now`. -/
def difference (b other : DeletionBitmap) (now : UInt64) : DeletionBitmap :=
  { b with
    deleted_docs := b.deleted_docs \ other.deleted_docs
    deleted_count := UInt64.ofNat (b.deleted_docs \ other.deleted_docs).card
    last_modified := now
    version := b.version + 1 }

/-! ## The file format -/

/-- `0x44454C42`, "DELB". -/
def MAGIC : UInt32 := 0x44454C42

open StructWriter in
/-- `write_to_storage`. A payload no `Vec` can hold is a capacity overflow. -/
def write_to_storage (roaring : Roaring) (b : DeletionBitmap) : Write Unit := do
  write_u32 MAGIC
  write_u32 4
  write_string b.segment_id
  write_u64 b.total_docs
  write_u64 b.deleted_count
  write_u64 b.last_modified
  write_u64 b.version
  write_u64 b.min_doc_id
  write_u64 b.max_doc_id
  let payload := roaring.serialize_into b.deleted_docs
  if 2 ^ 63 ≤ payload.length then throw (LaurusError.internal "capacity overflow")
  write_bytes payload

/-- The set bits of version 1's `bit_vec::BitVec`, highest bit of each byte
first, with the least and the greatest index met. -/
def bit_vec_docs (bytes : Bytes) : Finset UInt64 × UInt64 × UInt64 :=
  let bits := bytes.flatMap fun byte =>
    (List.range 8).map fun i => decide (byte &&& (0x80 >>> UInt8.ofNat i) ≠ 0)
  bits.zipIdx.foldl (fun (acc : Finset UInt64 × UInt64 × UInt64) (bit, idx) =>
    if bit then
      let doc_id := UInt64.ofNat idx
      (insert doc_id acc.1, min acc.2.1 doc_id, max acc.2.2 doc_id)
    else acc) (∅, 0xFFFFFFFFFFFFFFFF, 0)

open StructReader in
/-- The id loop of versions 2 and 3, with the least and the greatest id met. -/
def read_ids : ℕ → Finset UInt64 × UInt64 × UInt64 → Read (Finset UInt64 × UInt64 × UInt64)
  | 0, acc => return acc
  | n + 1, acc => do
    let doc_id ← read_u64
    read_ids n (insert doc_id acc.1, min acc.2.1 doc_id, max acc.2.2 doc_id)

/-- The range versions 1 and 2 infer, having no range of their own. -/
def inferred_range (total_docs : UInt64) (docs : Finset UInt64 × UInt64 × UInt64) :
    UInt64 × UInt64 :=
  if 0 < total_docs ∧ docs.1 = ∅ then (0, total_docs - 1)
  else if total_docs = 0 then (0, 0)
  else docs.2

open StructReader in
/-- `read_fields`. -/
def read_fields (roaring : Roaring) : Read DeletionBitmap := do
  let magic ← read_u32
  if magic ≠ MAGIC then
    throw (Fault.error (LaurusError.index "Invalid deletion bitmap format"))
  let version ← read_u32
  if version = 1 then
    let segment_id ← read_string
    let total_docs ← read_u64
    let deleted_count ← read_u64
    let last_modified ← read_u64
    let bitmap_version ← read_u64
    let _ ← read_varint
    let bitmap_bytes ← read_bytes
    let docs := bit_vec_docs bitmap_bytes
    let range := inferred_range total_docs docs
    return { segment_id, deleted_docs := docs.1, total_docs, min_doc_id := range.1,
             max_doc_id := range.2, deleted_count, last_modified, version := bitmap_version }
  else if version = 2 then
    let segment_id ← read_string
    let total_docs ← read_u64
    let deleted_count ← read_u64
    let last_modified ← read_u64
    let bitmap_version ← read_u64
    let deleted_id_count ← read_varint
    let docs ← read_ids deleted_id_count.toNat (∅, 0xFFFFFFFFFFFFFFFF, 0)
    let range := inferred_range total_docs docs
    return { segment_id, deleted_docs := docs.1, total_docs, min_doc_id := range.1,
             max_doc_id := range.2, deleted_count, last_modified, version := bitmap_version }
  else if version = 3 then
    let segment_id ← read_string
    let total_docs ← read_u64
    let deleted_count ← read_u64
    let last_modified ← read_u64
    let bitmap_version ← read_u64
    let min_doc_id ← read_u64
    let max_doc_id ← read_u64
    let deleted_id_count ← read_varint
    let docs ← read_ids deleted_id_count.toNat (∅, 0xFFFFFFFFFFFFFFFF, 0)
    return { segment_id, deleted_docs := docs.1, total_docs, min_doc_id, max_doc_id,
             deleted_count, last_modified, version := bitmap_version }
  else if version = 4 then
    let segment_id ← read_string
    let total_docs ← read_u64
    let deleted_count ← read_u64
    let last_modified ← read_u64
    let bitmap_version ← read_u64
    let min_doc_id ← read_u64
    let max_doc_id ← read_u64
    let payload ← read_bytes
    match roaring.deserialize_from payload with
    | .ok deleted_docs =>
      return { segment_id, deleted_docs, total_docs, min_doc_id, max_doc_id, deleted_count,
               last_modified, version := bitmap_version }
    | .error e => throw (Fault.error (LaurusError.index
        s!"Failed to deserialize deletion bitmap: {e}"))
  else throw (Fault.error (LaurusError.index s!"Unsupported bitmap version: {version}"))

open StructReader in
/-- `read_from_storage`. -/
def read_from_storage (roaring : Roaring) (crc32 : Bytes → UInt32) : Read DeletionBitmap := do
  let bitmap ← read_fields roaring
  expect_checksum crc32 "deletion bitmap"
  return bitmap

end DeletionBitmap

/-! ## Bitmaps side by side -/

/-- A call on one of some bitmaps; `snapshot` and `difference` add one. -/
inductive BitmapCall
  | delete_document (cell : ℕ) (doc_id now : UInt64)
  | undelete_document (cell : ℕ) (doc_id now : UInt64)
  | snapshot (cell : ℕ)
  | difference (newer older : ℕ) (now : UInt64)

namespace BitmapCall

/-- What a call that may fail leaves. -/
def left (b : DeletionBitmap) : Except LaurusError (Bool × DeletionBitmap) → DeletionBitmap
  | .ok (_, b') => b'
  | .error _ => b

/-- One call. -/
def step (cells : List DeletionBitmap) : BitmapCall → List DeletionBitmap
  | delete_document cell doc_id now =>
    cells.modify cell fun b => left b (b.delete_document doc_id now)
  | undelete_document cell doc_id now =>
    cells.modify cell fun b => left b (b.undelete_document doc_id now)
  | snapshot cell => cells ++ (cells[cell]?.map DeletionBitmap.snapshot).toList
  | difference newer older now =>
    cells ++ (cells[newer]?.bind fun b =>
      cells[older]?.map fun other => b.difference other now).toList

end BitmapCall

/-- `DeletionLogEntry`. -/
structure DeletionLogEntry where
  timestamp : UInt64
  segment_id : String
  doc_id : UInt64
  reason : String
  sequence : UInt64
  deriving DecidableEq, Repr

/-- What the component takes from third-party code: the Roaring format, the
CRC, and `serde_json` for log entries. -/
structure DeletionDeps where
  roaring : Roaring
  crc32 : Bytes → UInt32
  to_json : DeletionLogEntry → String
  from_json : String → Option DeletionLogEntry

/-- `DeletionLog`. -/
structure DeletionLog where
  log_path : String
  sequence : UInt64
  deriving DecidableEq, Repr

namespace DeletionLog

variable (deps : DeletionDeps)

open StructWriter in
/-- What one append writes: the entry, a newline, and the footer. -/
def record (entry : DeletionLogEntry) : Except LaurusError Bytes := do
  let ((), w) ← (do
    write_string (deps.to_json entry)
    write_u8 0x0A : Write Unit) StructWriter.new
  w.close deps.crc32

/-- `log_deletion`: the sequence number is taken whatever the append does. -/
def log_deletion (log : DeletionLog) (s : Storage) (segment_id : String) (doc_id : UInt64)
    (reason : String) (now : UInt64) (fault : Option WriteFault) :
    Except LaurusError Unit × DeletionLog × Storage :=
  let entry : DeletionLogEntry :=
    { timestamp := now, segment_id, doc_id, reason, sequence := log.sequence }
  let log := { log with sequence := log.sequence + 1 }
  match record deps entry with
  | .error e => (.error e, log, s)
  | .ok bytes =>
    let (result, s) := s.appendTo log.log_path bytes fault
    (result, log, s)

open StructReader in
/-- The loop of `load_sequence`, an entry a turn: an entry that does not
read ends it, and so does a torn footer. -/
def load_sequence_loop : ℕ → UInt64 → StructReader → UInt64
  | 0, max_sequence, _ => max_sequence
  | fuel + 1, max_sequence, r =>
    if r.remaining = 0 then max_sequence else
    match read_string r with
    | .error _ => max_sequence
    | .ok (json, r) =>
      let max_sequence := match deps.from_json json with
        | some entry => max max_sequence entry.sequence
        | none => max_sequence
      match (do let _ ← read_u8; let _ ← read_u32 : Read Unit) r with
      | .error _ => max_sequence
      | .ok ((), r) =>
        -- `peek_u32`, and the magic that entries since the footer carry
        let r := if 4 ≤ r.remaining ∧
            UInt32.ofNat (Bytes.toNatLE (r.rest.take 4)) = FOOTER_MAGIC
          then r.advance (r.rest.take 4) else r
        load_sequence_loop fuel max_sequence r

/-- `DeletionLog::new`, with `load_sequence`. Each turn of the loop takes a
byte at least, so the file's length bounds its turns. -/
def new (s : Storage) (log_path : String) : DeletionLog :=
  match AList.lookup log_path s with
  | none => { log_path, sequence := 0 }
  | some bytes =>
    { log_path, sequence := load_sequence_loop deps bytes.length 0 (StructReader.new bytes) + 1 }

end DeletionLog

/-- The bitmaps in memory, by segment. -/
abbrev Bitmaps := AList fun _ : String => DeletionBitmap

/-- `DeletionManager`, less its storage. -/
structure DeletionManager where
  bitmaps : Bitmaps
  deletion_log : Option DeletionLog
  dirty_segments : Finset String

/-- `{segment_id}.delmap`. -/
def bitmap_file (segment_id : String) : String := segment_id ++ ".delmap"

/-- `{bitmap_file}.tmp`. -/
def tmp_file (segment_id : String) : String := bitmap_file segment_id ++ ".tmp"

/-- `str::ends_with`. -/
def ends_with (name suffix : String) : Bool := suffix.toList.isSuffixOf name.toList

/-- Where `save_bitmap` fails. -/
inductive SaveFault
  | write (fault : WriteFault)
  | rename (e : LaurusError)
  deriving DecidableEq, Repr

namespace DeletionManager

variable (deps : DeletionDeps)

/-- The bytes of a saved bitmap. -/
def bitmap_bytes (bitmap : DeletionBitmap) : Except LaurusError Bytes := do
  let ((), w) ← bitmap.write_to_storage deps.roaring StructWriter.new
  w.close deps.crc32

/-- A bitmap file's contents. -/
def load_bitmap (bytes : Bytes) : Except Fault DeletionBitmap :=
  match DeletionBitmap.read_from_storage deps.roaring deps.crc32 (StructReader.new bytes) with
  | .ok (bitmap, _) => .ok bitmap
  | .error e => .error e

/-- `mark_dirty`. -/
def mark_dirty (m : DeletionManager) (segment_id : String) : DeletionManager :=
  { m with dirty_segments := insert segment_id m.dirty_segments }

/-- `initialize_segment`. -/
def initialize_segment (m : DeletionManager) (segment_id : String)
    (min_doc_id max_doc_id now : UInt64) : DeletionManager :=
  if segment_id ∈ m.bitmaps then m
  else
    let bitmap := DeletionBitmap.new segment_id min_doc_id max_doc_id now
    { m with bitmaps := m.bitmaps.insert segment_id bitmap }.mark_dirty segment_id

/-- `delete_document`: the bit, the log entry, the dirty mark, in that order. -/
def delete_document (m : DeletionManager) (s : Storage) (segment_id : String) (doc_id : UInt64)
    (reason : String) (now : UInt64) (fault : Option WriteFault) :
    Except LaurusError Bool × DeletionManager × Storage :=
  match m.bitmaps.lookup segment_id with
  | none => (.error (LaurusError.index
      s!"Segment {segment_id} not found in deletion manager"), m, s)
  | some bitmap =>
    match bitmap.delete_document doc_id now with
    | .error e => (.error e, m, s)
    | .ok (was_deleted, bitmap) =>
      let m := { m with bitmaps := m.bitmaps.insert segment_id bitmap }
      match m.deletion_log with
      | none =>
        (.ok was_deleted, if was_deleted then m.mark_dirty segment_id else m, s)
      | some log =>
        let (result, log, s) := log.log_deletion deps s segment_id doc_id reason now fault
        let m := { m with deletion_log := some log }
        match result with
        -- the bit stays set, the mark is not made
        | .error e => (.error e, m, s)
        | .ok () => (.ok was_deleted, if was_deleted then m.mark_dirty segment_id else m, s)

/-- `save_bitmap`: a temporary file, then a rename. -/
def save_bitmap (m : DeletionManager) (s : Storage) (segment_id : String)
    (fault : Option SaveFault) : Except LaurusError Unit × Storage :=
  match m.bitmaps.lookup segment_id with
  | none => (.ok (), s)
  | some bitmap =>
    match bitmap_bytes deps bitmap with
    | .error e => (.error e, s)
    | .ok bytes =>
      match fault with
      | some (SaveFault.write f) => s.create (tmp_file segment_id) bytes (some f)
      | some (SaveFault.rename e) =>
        (s.create (tmp_file segment_id) bytes none).2.rename (tmp_file segment_id)
          (bitmap_file segment_id) (some e)
      | none =>
        (s.create (tmp_file segment_id) bytes none).2.rename (tmp_file segment_id)
          (bitmap_file segment_id) none

/-- The loop of `flush` over the drained list: on a failure, the failed
segment and every later one are dirty again. -/
def flush_loop (faults : String → Option SaveFault) :
    List String → DeletionManager → Storage → Except LaurusError Unit × DeletionManager × Storage
  | [], m, s => (.ok (), m, s)
  | segment_id :: rest, m, s =>
    match m.save_bitmap deps s segment_id (faults segment_id) with
    | (.error e, s) =>
      (.error e,
        { m with dirty_segments := m.dirty_segments ∪ (segment_id :: rest).toFinset }, s)
    | (.ok (), s) => flush_loop faults rest m s

/-- `flush`, the dirty set drained in the order `dirty`. -/
def flush (m : DeletionManager) (s : Storage) (dirty : List String)
    (faults : String → Option SaveFault) :
    Except LaurusError Unit × DeletionManager × Storage :=
  flush_loop deps faults dirty { m with dirty_segments := ∅ } s

/-- The loop of `load_bitmaps` over the listed files. -/
def load_bitmaps_loop (s : Storage) :
    List String → Bitmaps → Except Fault Bitmaps
  | [], bitmaps => .ok bitmaps
  | file :: files, bitmaps =>
    if ends_with file ".delmap" then
      match AList.lookup file s with
      | none => .error (Fault.error (LaurusError.storage s!"File not found: {file}"))
      | some bytes =>
        match load_bitmap deps bytes with
        | .error (Fault.error e) => .error (Fault.error (LaurusError.index
            s!"Failed to load deletion bitmap {file}: {e.toText}"))
        | .error crash => .error crash
        | .ok bitmap => load_bitmaps_loop s files (bitmaps.insert bitmap.segment_id bitmap)
    else load_bitmaps_loop s files bitmaps

/-- `DeletionManager::new`, with `load_bitmaps`. -/
def new (enable_deletion_log : Bool) (s : Storage) : Except Fault DeletionManager := do
  let deletion_log := if enable_deletion_log then some (DeletionLog.new deps s "deletions.log")
    else none
  let bitmaps ← load_bitmaps_loop deps s s.keys ∅
  return { bitmaps, deletion_log, dirty_segments := ∅ }

/-- `is_deleted`. -/
def is_deleted (m : DeletionManager) (segment_id : String) (doc_id : UInt64) : Bool :=
  match m.bitmaps.lookup segment_id with
  | none => false
  | some bitmap => bitmap.is_deleted doc_id

end DeletionManager

/-! ## Runs -/

/-- A Rust string: no allocation exceeds `isize::MAX` bytes. -/
structure RustString where
  text : String
  fits : text.toByteArray.data.toList.length < 2 ^ 63

/-- An operation, with the faults its writes meet. -/
inductive DeletionOp
  | initialize_segment (segment_id : RustString) (min_doc_id max_doc_id now : UInt64)
  | delete_document (segment_id : String) (doc_id : UInt64) (reason : String) (now : UInt64)
      (fault : Option WriteFault)
  | flush (dirty : List String) (faults : String → Option SaveFault)
  /-- The process ends and a new manager loads the bitmaps. -/
  | reload (enable_deletion_log : Bool)

/-- A live manager and the storage under it. -/
structure DeletionState where
  manager : DeletionManager
  storage : Storage

/-- One operation, run to its end. `flush` drains a set, in any order. -/
inductive DeletionStep (deps : DeletionDeps) : Step DeletionState DeletionOp
  | initialize_segment {m s} {segment_id : RustString} {min_doc_id max_doc_id now : UInt64} :
      DeletionStep deps ⟨m, s⟩ (.initialize_segment segment_id min_doc_id max_doc_id now)
        ⟨m.initialize_segment segment_id.text min_doc_id max_doc_id now, s⟩
  | delete_document {m m' s s' segment_id doc_id reason now fault result} :
      m.delete_document deps s segment_id doc_id reason now fault = (result, m', s') →
      DeletionStep deps ⟨m, s⟩ (.delete_document segment_id doc_id reason now fault) ⟨m', s'⟩
  | flush {m m' s s' dirty faults result} :
      dirty.Nodup → dirty.toFinset = m.dirty_segments →
      m.flush deps s dirty faults = (result, m', s') →
      DeletionStep deps ⟨m, s⟩ (.flush dirty faults) ⟨m', s'⟩
  | reload {m m' s enable_deletion_log} :
      DeletionManager.new deps enable_deletion_log s = .ok m' →
      DeletionStep deps ⟨m, s⟩ (.reload enable_deletion_log) ⟨m', s⟩
  | reload_failed {m s enable_deletion_log e} :
      DeletionManager.new deps enable_deletion_log s = .error e →
      DeletionStep deps ⟨m, s⟩ (.reload enable_deletion_log) ⟨m, s⟩

end Laurus
