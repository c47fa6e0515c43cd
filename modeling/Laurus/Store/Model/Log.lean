import Laurus.Common.Bytes
import Laurus.Common.Run
import Laurus.Storage.Model.Files
import Laurus.Store.Model.Document
import Mathlib.Data.UInt

/-!
# The document log (`store/log.rs`)

The log file is its bytes, with those a writer has buffered: a crash is no
step here. Opening the file and writing to it may fail, which the
`AppendFault` says; a replacement of the file, which goes through a
temporary file and a rename, is done whole. When the file is synced, and
whether its name is, do not change its bytes and are left out.
-/

namespace Laurus

section Record

/-!
## Log records and their framings (`store/log.rs`)

A record is one mutation. Versions 2 and 3 of the file, and the one before
them, hold the older records of `V3`, which are converted when they are
read. The payload codecs (`rkyv`, `serde_json`) and `crc32fast` are the
parameters of `WalCodec`; a document is whatever they carry.
-/

/-- `LogEntry`. -/
inductive LogEntry (Document : Type)
  /-- Insert a document, deleting the versions it replaces. -/
  | Upsert (doc_id : UInt64) (external_id : String) (document : Document) (replaces : List UInt64)
  /-- Delete documents of one external id. -/
  | Delete (doc_ids : List UInt64) (external_id : String)
  deriving DecidableEq, Repr

/-- `LogRecord`. -/
structure LogRecord (Document : Type) where
  seq : UInt64
  entry : LogEntry Document
  deriving DecidableEq, Repr

namespace V3

/-- `v3::LogEntry`. -/
inductive LogEntry (Document : Type)
  | Upsert (doc_id : UInt64) (external_id : String) (document : Document)
  | Delete (doc_id : UInt64) (external_id : String)
  deriving DecidableEq, Repr

/-- `v3::LogRecord`. -/
structure LogRecord (Document : Type) where
  seq : UInt64
  entry : LogEntry Document
  deriving DecidableEq, Repr

/-- `From<v3::LogRecord>`: an upsert replaces nothing, a delete deletes one
document. -/
def LogRecord.into {Document : Type} (record : LogRecord Document) : Laurus.LogRecord Document where
  seq := record.seq
  entry := match record.entry with
    | .Upsert doc_id external_id document => .Upsert doc_id external_id document []
    | .Delete doc_id external_id => .Delete [doc_id] external_id

end V3

/-- `WalFormat`. -/
inductive WalFormat
  | Legacy
  | V2
  | V3
  | V4
  | Unknown (version : UInt8)
  deriving DecidableEq, Repr

/-- `WalFormat::has_crc`. -/
def WalFormat.has_crc : WalFormat → Bool
  | .Legacy => false
  | _ => true

/-- `WAL_MAGIC`: `LWAL`. -/
def WAL_MAGIC : Bytes := [0x4C, 0x57, 0x41, 0x4C]

/-- `WAL_VERSION`. -/
def WAL_VERSION : UInt8 := 4

/-- `WAL_VERSION_V3`. -/
def WAL_VERSION_V3 : UInt8 := 3

/-- `WAL_VERSION_V2`. -/
def WAL_VERSION_V2 : UInt8 := 2

/-- `WAL_HEADER_LEN`. -/
def WAL_HEADER_LEN : ℕ := 5

/-- The code under the log's framing. -/
structure WalCodec (Document : Type) where
  crc32 : Bytes → UInt32
  /-- `rkyv::to_bytes`, of the current records; an error is its text. -/
  to_bytes : LogRecord Document → Except String Bytes
  /-- `rkyv::from_bytes`, of the current records. -/
  from_bytes : Bytes → Except String (LogRecord Document)
  /-- `rkyv::from_bytes`, of the records of version 3. -/
  from_bytes_v3 : Bytes → Except String (V3.LogRecord Document)
  /-- `serde_json::from_slice`, of the same records. -/
  from_slice : Bytes → Except String (V3.LogRecord Document)

variable {Document : Type}

/-- What is relied on of the codec: a record that was encoded decodes. -/
def WalCodec.Lawful (codec : WalCodec Document) : Prop :=
  ∀ record bytes, codec.to_bytes record = .ok bytes → codec.from_bytes bytes = .ok record

namespace WalCodec

variable (codec : WalCodec Document)

/-- `encode_payload`. -/
def encode_payload (record : LogRecord Document) : Except LaurusError Bytes :=
  (codec.to_bytes record).mapError fun e =>
    LaurusError.SerializationError s!"WAL rkyv encode failed: {e}"

/-- `decode_payload`. -/
def decode_payload (buffer : Bytes) : WalFormat → Except LaurusError (LogRecord Document)
  | .V4 => (codec.from_bytes buffer).mapError fun e =>
      LaurusError.SerializationError s!"WAL rkyv decode failed: {e}"
  | .V3 => ((codec.from_bytes_v3 buffer).map V3.LogRecord.into).mapError fun e =>
      LaurusError.SerializationError s!"WAL rkyv decode failed: {e}"
  | .V2 | .Legacy => ((codec.from_slice buffer).map V3.LogRecord.into).mapError LaurusError.Json
  | .Unknown version => .error (LaurusError.SerializationError
      s!"WAL format version {version} is unknown")

/-- The frame `append_record_bytes` writes: `[u32 len][u32 crc32][payload]`,
the sum over the length and the payload. -/
def record_frame (record : LogRecord Document) : Except LaurusError Bytes := do
  let bytes ← codec.encode_payload record
  if bytes.length < 2 ^ 32 then
    let len_bytes := Bytes.ofNatLE 4 bytes.length
    let crc := Bytes.ofNatLE 4 (codec.crc32 (len_bytes ++ bytes)).toNat
    return len_bytes ++ crc ++ bytes
  else throw (LaurusError.InvalidOperation s!"WAL record size {bytes.length} exceeds u32::MAX")

end WalCodec

end Record

section Log

variable {Document : Type}

/-- Where an append fails. -/
inductive AppendFault
  /-- The file cannot be opened, or its storage synced. -/
  | start (e : LaurusError)
  /-- The header of a new file is written in part. -/
  | header (e : LaurusError) (written : ℕ)
  /-- The record's frame is written in part. -/
  | frame (e : LaurusError) (written : ℕ)
  deriving DecidableEq, Repr

/-- `DocumentLog`. -/
structure DocumentLog (Document : Type) where
  wal_path : String
  /-- The log file, when there is one. -/
  wal_file : Option Bytes
  next_doc_id : UInt64
  next_seq : UInt64
  /-- Whether an append handle is open. -/
  wal_writer : Bool
  torn : Bool
  doc_store : UnifiedDocumentStore Document

/-- `detect_existing_format`. -/
def detect_existing_format (bytes : Bytes) : WalFormat :=
  if bytes.length < WAL_HEADER_LEN then .Legacy
  else if bytes.take 4 ≠ WAL_MAGIC then .Legacy
  else
    let version := bytes.getD 4 0
    if version = WAL_VERSION then .V4
    else if version = WAL_VERSION_V3 then .V3
    else if version = WAL_VERSION_V2 then .V2
    else .Unknown version

/-- The header's length in a file of a framing. -/
def WalFormat.header_len : WalFormat → ℕ
  | .Legacy => 0
  | _ => WAL_HEADER_LEN

/-- What `read_wal`'s loop keeps. -/
structure WalScan (Document : Type) where
  records : List (LogRecord Document)
  max_seq : UInt64
  max_doc_id : UInt64
  /-- Where the last complete record, or the header, ends. -/
  valid_len : ℕ

namespace WalScan

/-- A record that was read, up to `position`. -/
def push (scan : WalScan Document) (record : LogRecord Document) (position : ℕ) :
    WalScan Document where
  records := scan.records ++ [record]
  max_seq := if scan.max_seq < record.seq then record.seq else scan.max_seq
  max_doc_id := match record.entry with
    | .Upsert doc_id _ _ _ => if scan.max_doc_id < doc_id then doc_id else scan.max_doc_id
    | .Delete _ _ => scan.max_doc_id
  valid_len := position

end WalScan

namespace WalCodec

variable (codec : WalCodec Document)

/-- One turn of `read_wal`'s loop, on the bytes from the position on: the
record there and the bytes it takes, or none where the loop ends. -/
def read_frame (format : WalFormat) (bytes : Bytes) : Option (LogRecord Document × ℕ) :=
  if bytes.length < 4 then none
  else
    let len_bytes := bytes.take 4
    let len := Bytes.toNatLE len_bytes
    let rest := bytes.drop 4
    if format.has_crc then
      if rest.length < 4 then none
      else
        let expected := UInt32.ofNat (Bytes.toNatLE (rest.take 4))
        let rest := rest.drop 4
        if rest.length < len then none
        else
          let buffer := rest.take len
          if codec.crc32 (len_bytes ++ buffer) ≠ expected then none
          else match codec.decode_payload buffer format with
          | .ok record => some (record, 8 + len)
          | .error _ => none
    else if rest.length < len then none
    else match codec.decode_payload (rest.take len) format with
      | .ok record => some (record, 4 + len)
      | .error _ => none

/-- `read_wal`'s loop; each turn takes a byte at least. -/
def read_loop (format : WalFormat) : ℕ → Bytes → WalScan Document → WalScan Document
  | 0, _, scan => scan
  | fuel + 1, bytes, scan =>
    match codec.read_frame format bytes with
    | none => scan
    | some (record, taken) =>
      read_loop format fuel (bytes.drop taken) (scan.push record (scan.valid_len + taken))

/-- The loop over a whole file. -/
def scan_file (format : WalFormat) (bytes : Bytes) : WalScan Document :=
  codec.read_loop format (bytes.length + 1) (bytes.drop format.header_len)
    { records := [], max_seq := 0, max_doc_id := 0, valid_len := format.header_len }

end WalCodec

namespace DocumentLog

variable (codec : WalCodec Document)

/-- `DocumentLog::new`, over the files that are there. -/
def new (wal_path : String) (wal_file : Option Bytes) (storage : DocStorage) :
    DocumentLog Document :=
  { wal_path, wal_file, next_doc_id := 1, next_seq := 1, wal_writer := false, torn := false,
    doc_store := UnifiedDocumentStore.load storage }

/-- `unknown_version_error`. -/
def unknown_version_error (log : DocumentLog Document) (version : UInt8) : LaurusError :=
  LaurusError.IncompatibleFormat
    (s!"WAL '{log.wal_path}' has format version {version}, which this build does not know: a " ++
      "newer build wrote it, so open the index with that build")

/-- `set_next_doc_id`. -/
def set_next_doc_id (log : DocumentLog Document) (id : UInt64) : DocumentLog Document :=
  if log.next_doc_id < id then { log with next_doc_id := id } else log

/-- `last_seq`. -/
def last_seq (log : DocumentLog Document) : UInt64 :=
  if log.next_seq = 0 then 0 else log.next_seq - 1

/-- `advance_seq_past`. -/
def advance_seq_past (log : DocumentLog Document) (seq : UInt64) : DocumentLog Document :=
  let past := if seq = UInt64.ofNat (2 ^ 64 - 1) then seq else seq + 1
  { log with next_seq := max log.next_seq past }

/-- The sequence counter after a scan: the sum wraps around. -/
def raise_next_seq (log : DocumentLog Document) (max_seq : UInt64) : DocumentLog Document :=
  if log.next_seq ≤ max_seq then { log with next_seq := max_seq + 1 } else log

/-- The document counter after a scan: the sum wraps around. -/
def raise_next_doc_id (log : DocumentLog Document) (max_doc_id : UInt64) :
    DocumentLog Document :=
  if log.next_doc_id ≤ max_doc_id then { log with next_doc_id := max_doc_id + 1 } else log

/-- The counters after a scan, and after the document store's. -/
def raise_counters (log : DocumentLog Document) (scan : WalScan Document) :
    DocumentLog Document :=
  ((log.raise_next_seq scan.max_seq).raise_next_doc_id scan.max_doc_id).set_next_doc_id
    log.doc_store.next_doc_id

/-- `read_wal`. -/
def read_wal (log : DocumentLog Document) :
    Except LaurusError (List (LogRecord Document) × Option ℕ) × DocumentLog Document :=
  match log.wal_file with
  | none => (.ok ([], none), log.set_next_doc_id log.doc_store.next_doc_id)
  | some bytes =>
    match detect_existing_format bytes with
    | .Unknown version => (.error (log.unknown_version_error version), log)
    | format =>
      let scan := codec.scan_file format bytes
      let cut_at := if scan.valid_len < bytes.length then some scan.valid_len else none
      (.ok (scan.records, cut_at), log.raise_counters scan)

/-- `cut_wal`. -/
def cut_wal (log : DocumentLog Document) (valid_len : ℕ) : DocumentLog Document :=
  { log with wal_file := log.wal_file.map (List.take valid_len) }

/-- `read_all`. -/
def read_all (log : DocumentLog Document) :
    Except LaurusError (List (LogRecord Document)) × DocumentLog Document :=
  match log.read_wal codec with
  | (.error e, log) => (.error e, log)
  | (.ok (records, none), log) => (.ok records, log)
  | (.ok (records, some valid_len), log) =>
    (.ok records, if log.wal_writer then log else log.cut_wal valid_len)

/-- The header of a version 4 file. -/
def wal_header : Bytes := WAL_MAGIC ++ [WAL_VERSION]

/-- `rewrite_wal`: the file becomes one of version 4 with `records`, unless
one of them cannot be encoded. -/
def rewrite_wal (log : DocumentLog Document) (records : List (LogRecord Document)) :
    Except LaurusError Unit × DocumentLog Document :=
  match records.mapM codec.record_frame with
  | .ok frames => (.ok (), { log with wal_file := some (wal_header ++ frames.flatten) })
  | .error e => (.error e, log)

/-- `ensure_writer` on an older framing: the file is rewritten first. -/
def upgrade (log : DocumentLog Document) : Except LaurusError Unit × DocumentLog Document :=
  match log.read_wal codec with
  | (.ok (records, _), log) => log.rewrite_wal codec records
  | (.error e, log) => (.error e, log)

/-- `ensure_writer` once the file is new or of version 4. -/
def open_writer (log : DocumentLog Document) (fault : Option AppendFault) :
    Except LaurusError Unit × DocumentLog Document :=
  let bytes := log.wal_file.getD []
  match fault with
  | some (.start e) => (.error e, log)
  | _ =>
    if bytes = [] then
      match fault with
      | some (.header e written) =>
        (.error e, { log with wal_file := some (wal_header.take (min written 4)) })
      | _ => (.ok (), { log with wal_file := some wal_header, wal_writer := true })
    else (.ok (), { log with wal_writer := true })

/-- `ensure_writer`. -/
def ensure_writer (log : DocumentLog Document) (fault : Option AppendFault) :
    Except LaurusError Unit × DocumentLog Document :=
  if log.torn then
    (.error (LaurusError.storage
      (s!"WAL '{log.wal_path}' may end in a partially written record, so nothing more can be " ++
        "appended to it until it is opened again")), log)
  else if log.wal_writer then (.ok (), log)
  else
    let bytes := log.wal_file.getD []
    if bytes = [] then log.open_writer fault
    else match detect_existing_format bytes with
    | .V4 => log.open_writer fault
    | .Unknown version => (.error (log.unknown_version_error version), log)
    | .Legacy | .V2 | .V3 =>
      match log.upgrade codec with
      | (.ok (), log) => log.open_writer fault
      | (.error e, log) => (.error e, log)

/-- `write_record` on the open file: a frame cut short leaves the log torn. -/
def write_record (log : DocumentLog Document) (record : LogRecord Document)
    (fault : Option AppendFault) : Except LaurusError Unit × DocumentLog Document :=
  match codec.record_frame record with
  | .error e => (.error e, log)
  | .ok frame =>
    let bytes := log.wal_file.getD []
    match fault with
    | some (.frame e written) =>
      (.error e, { log with
        wal_file := some (bytes ++ frame.take (min written (frame.length - 1))), torn := true })
    | _ => (.ok (), { log with wal_file := some (bytes ++ frame) })

/-- `append_put`. -/
def append_put (log : DocumentLog Document) (external_id : String) (doc : Document)
    (replaces : List UInt64) (fault : Option AppendFault) :
    Except LaurusError (UInt64 × UInt64) × DocumentLog Document :=
  match log.ensure_writer codec fault with
  | (.error e, log) => (.error e, log)
  | (.ok (), log) =>
    let doc_id := log.next_doc_id
    let seq := log.next_seq
    let log := { log with next_doc_id := doc_id + 1, next_seq := seq + 1 }
    let record := { seq, entry := .Upsert doc_id external_id doc replaces }
    match log.write_record codec record fault with
    | (.error e, log) => (.error e, log)
    | (.ok (), log) => (.ok (doc_id, seq), log)

/-- `append_delete`. -/
def append_delete (log : DocumentLog Document) (doc_ids : List UInt64) (external_id : String)
    (fault : Option AppendFault) : Except LaurusError UInt64 × DocumentLog Document :=
  match log.ensure_writer codec fault with
  | (.error e, log) => (.error e, log)
  | (.ok (), log) =>
    let seq := log.next_seq
    let log := { log with next_seq := seq + 1 }
    let record := { seq, entry := .Delete doc_ids external_id }
    match log.write_record codec record fault with
    | (.error e, log) => (.error e, log)
    | (.ok (), log) => (.ok seq, log)

/-- `truncate_retaining_after`. -/
def truncate_retaining_after (log : DocumentLog Document) (retain_after_seq : UInt64) :
    Except LaurusError Unit × DocumentLog Document :=
  let log := { log with wal_writer := false }
  if log.last_seq ≤ retain_after_seq then (.ok (), { log with wal_file := some [] })
  else match log.read_wal codec with
    | (.error e, log) => (.error e, log)
    | (.ok (records, _), log) =>
      log.rewrite_wal codec (records.filter fun record => retain_after_seq < record.seq)

/-- The log of a process that opens the files again, its stores' checkpoints
at `checkpoint`. -/
def reopen (log : DocumentLog Document) (checkpoint : UInt64) :
    Except LaurusError (List (LogRecord Document)) × DocumentLog Document :=
  ((new log.wal_path log.wal_file log.doc_store.storage).advance_seq_past checkpoint).read_all codec

end DocumentLog

end Log

end Laurus
