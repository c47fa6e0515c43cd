import Laurus.Store.Model.Log
import Mathlib.Tactic.Ring

/-!
# When the log is synced (`store/log.rs`)

`SyncedLog` is the log with its sync policy, the counts of its append
handle, and how much of its file a sync covers. The file's bytes are those a
handle accepted: what lies past the last sync is written out, or buffered,
or in part either, so a handle that is dropped leaves any part of it. Every
call to storage can fail, which a call's `AppendIo` or `TruncateIo` says.
The writer lock makes each call one step.
-/

namespace Laurus

/-- `WalSyncPolicy`; an interval is in nanoseconds. -/
inductive WalSyncPolicy
  | PerRecord
  | Group (max_records max_bytes : UInt64) (max_interval : Option ℕ)
  deriving DecidableEq, Repr

/-- `WalWriterState`, less its output. -/
structure WalWriterState where
  dirty : Bool
  unsynced_records : ℕ
  unsynced_bytes : ℕ
  deriving DecidableEq, Repr

/-- `WalWriterState::new`. -/
def WalWriterState.new : WalWriterState :=
  { dirty := false, unsynced_records := 0, unsynced_bytes := 0 }

/-- Where `rewrite_wal` fails. -/
inductive RewriteFault
  /-- The file in its place is not written. -/
  | temp (e : LaurusError)
  /-- It is not renamed. -/
  | rename (e : LaurusError)
  /-- The sync after the rename fails. -/
  | name (e : LaurusError)
  deriving DecidableEq, Repr

/-- What storage does in an append. -/
structure AppendIo where
  /-- The file cannot be read. -/
  read : Option LaurusError := none
  rewrite : Option RewriteFault := none
  /-- The append handle cannot be opened. -/
  append : Option LaurusError := none
  /-- The storage sync before the handle is used. -/
  name : Option LaurusError := none
  /-- The write of a new file's header, and how much of it is left. -/
  header : Option (LaurusError × ℕ) := none
  /-- The write of the frame, and how much of it was accepted. -/
  frame : Option (LaurusError × ℕ) := none
  /-- `flush_and_sync`. -/
  sync : Option LaurusError := none
  deriving DecidableEq, Repr

/-- What storage does in a truncation. -/
structure TruncateIo where
  /-- `flush_and_sync` of the open handle, and where the file then ends. -/
  sync : Option (LaurusError × ℕ) := none
  /-- `close` of the open handle, and where the file then ends. -/
  close : Option (LaurusError × ℕ) := none
  /-- The file is not emptied. -/
  create : Option LaurusError := none
  /-- It is, and a sync or the close of it fails. -/
  created : Option LaurusError := none
  /-- The file cannot be read. -/
  read : Option LaurusError := none
  rewrite : Option RewriteFault := none
  deriving DecidableEq, Repr

/-- `DocumentLog`, with what decides when it is synced. -/
structure SyncedLog (Document : Type) where
  /-- Its file holds what the open handle accepted. -/
  log : DocumentLog Document
  sync_policy : WalSyncPolicy
  sync_deferral_depth : ℕ
  wal_name_synced : Bool
  /-- Of the open handle; clean where there is none. -/
  state : WalWriterState
  /-- How much of the file the last sync covers. -/
  synced : ℕ

namespace SyncedLog

variable {Document : Type} (codec : WalCodec Document)

/-- A log that was opened and read; what it found counts as synced. -/
def opened (sync_policy : WalSyncPolicy) (log : DocumentLog Document) : SyncedLog Document :=
  { log, sync_policy, sync_deferral_depth := 0, wal_name_synced := false, state := .new,
    synced := (log.wal_file.getD []).length }

/-- The open handle is dropped, and the file ends at `len`, or where it is
synced up to. -/
def drop_writer (s : SyncedLog Document) (len : ℕ) : SyncedLog Document :=
  { s with
    log := { s.log with
      wal_file := s.log.wal_file.map (List.take (max s.synced len)), wal_writer := false }
    state := .new }

/-- `sync_wal_storage`. -/
def sync_wal_storage (s : SyncedLog Document) (fault : Option LaurusError) :
    Except LaurusError Unit × SyncedLog Document :=
  match fault with
  | none => (.ok (), { s with wal_name_synced := true })
  | some e => (.error e, { s with wal_name_synced := false })

/-- `rewrite_wal`. The file in its place is flushed and synced whole before
the rename, whatever the policy had synced of it. -/
def rewrite_wal (s : SyncedLog Document) (records : List (LogRecord Document))
    (fault : Option RewriteFault) : Except LaurusError Unit × SyncedLog Document :=
  match fault with
  | some (.temp e) => (.error e, s)
  | fault =>
    match s.log.rewrite_wal codec records with
    | (.error e, log) => (.error e, { s with log })
    | (.ok (), log) =>
      let renamed := { s with log, synced := (log.wal_file.getD []).length }
      match fault with
      | some (.rename e) => (.error e, { s with wal_name_synced := false })
      | some (.name e) => renamed.sync_wal_storage (some e)
      | _ => renamed.sync_wal_storage none

/-- The rewrite of a file in an older framing, with the records it holds. -/
def upgrade (s : SyncedLog Document) (io : AppendIo) :
    Except LaurusError Unit × SyncedLog Document :=
  match s.log.read_wal codec with
  | (.error e, log) => (.error e, { s with log })
  | (.ok (records, _), log) => { s with log }.rewrite_wal codec records io.rewrite

/-- `ensure_writer` from the storage sync on. -/
def start_writer (s : SyncedLog Document) (io : AppendIo) :
    Except LaurusError Unit × SyncedLog Document :=
  if s.log.wal_file.getD [] = [] then
    match io.header with
    | some (e, len) =>
      (.error e, { s with log := { s.log with
        wal_file := some (DocumentLog.wal_header.take len) } })
    | none =>
      (.ok (), { s with
        log := { s.log with wal_file := some DocumentLog.wal_header, wal_writer := true }
        state := .new })
  else (.ok (), { s with log := { s.log with wal_writer := true }, state := .new })

/-- `ensure_writer` once the file is new or of version 4. -/
def open_writer (s : SyncedLog Document) (io : AppendIo) :
    Except LaurusError Unit × SyncedLog Document :=
  match io.append with
  | some e => (.error e, s)
  | none =>
    if s.wal_name_synced then s.start_writer io
    else match s.sync_wal_storage io.name with
      | (.error e, s) => (.error e, s)
      | (.ok (), s) => s.start_writer io

/-- `ensure_writer` on an older framing, once it is rewritten. -/
def upgrade_writer (s : SyncedLog Document) (io : AppendIo) :
    Except LaurusError Unit × SyncedLog Document :=
  match s.upgrade codec io with
  | (.error e, s) => (.error e, s)
  | (.ok (), s) => s.open_writer io

/-- `ensure_writer`. -/
def ensure_writer (s : SyncedLog Document) (io : AppendIo) :
    Except LaurusError Unit × SyncedLog Document :=
  if s.log.torn then
    (.error (LaurusError.storage
      (s!"WAL '{s.log.wal_path}' may end in a partially written record, so nothing more can be " ++
        "appended to it until it is opened again")), s)
  else if s.log.wal_writer then (.ok (), s)
  else
    match io.read with
    | some e => (.error e, s)
    | none =>
      let bytes := s.log.wal_file.getD []
      if bytes = [] then s.open_writer io
      else match detect_existing_format bytes with
      | .V4 => s.open_writer io
      | .Unknown version => (.error (s.log.unknown_version_error version), s)
      | .Legacy | .V2 | .V3 => s.upgrade_writer codec io

/-- `append_record_bytes`, on the live file: the three writes of a frame are
one, and the counts are of 64 bits. -/
def append_record_bytes (s : SyncedLog Document) (record : LogRecord Document) (io : AppendIo) :
    Except LaurusError Unit × SyncedLog Document :=
  if s.log.wal_writer then
    match codec.record_frame record with
    | .error e => (.error e, s)
    | .ok frame =>
      let bytes := s.log.wal_file.getD []
      match io.frame with
      | some (e, len) =>
        (.error e, { s with log := { s.log with
          wal_file := some (bytes ++ frame.take len), torn := true } })
      | none =>
        (.ok (), { s with
          log := { s.log with wal_file := some (bytes ++ frame) }
          state := {
            dirty := true
            unsynced_records := (s.state.unsynced_records + 1) % 2 ^ 64
            unsynced_bytes := min (s.state.unsynced_bytes + frame.length) (2 ^ 64 - 1) } })
  else (.ok (), s)

/-- `flush_writer`. -/
def flush_writer (s : SyncedLog Document) (fault : Option LaurusError) :
    Except LaurusError Unit × SyncedLog Document :=
  if s.log.wal_writer ∧ s.state.dirty then
    match fault with
    | some e => (.error e, s)
    | none => (.ok (), { s with state := .new, synced := (s.log.wal_file.getD []).length })
  else (.ok (), s)

/-- `batch_ready`. -/
def batch_ready (s : SyncedLog Document) : WalSyncPolicy → Bool
  | .PerRecord => true
  | .Group max_records max_bytes max_interval =>
    s.log.wal_writer && (max_interval == some 0 ||
      decide (max max_records.toNat 1 ≤ s.state.unsynced_records) ||
      decide (max max_bytes.toNat 1 ≤ s.state.unsynced_bytes))

/-- Whether an append is synced at once. -/
def flush_now (s : SyncedLog Document) : Bool :=
  match s.sync_policy with
  | .PerRecord => s.sync_deferral_depth == 0
  | .Group max_records max_bytes max_interval =>
    s.batch_ready (.Group max_records max_bytes max_interval)

/-- `write_record`. -/
def write_record (s : SyncedLog Document) (record : LogRecord Document) (io : AppendIo) :
    Except LaurusError Unit × SyncedLog Document :=
  match s.append_record_bytes codec record io with
  | (.error e, s) => (.error e, s)
  | (.ok (), s) => if s.flush_now then s.flush_writer io.sync else (.ok (), s)

/-- `append_put`. -/
def append_put (s : SyncedLog Document) (external_id : String) (doc : Document)
    (replaces : List UInt64) (io : AppendIo) :
    Except LaurusError (UInt64 × UInt64) × SyncedLog Document :=
  match s.ensure_writer codec io with
  | (.error e, s) => (.error e, s)
  | (.ok (), s) =>
    let doc_id := s.log.next_doc_id
    let seq := s.log.next_seq
    let s := { s with log := { s.log with next_doc_id := doc_id + 1, next_seq := seq + 1 } }
    match s.write_record codec { seq, entry := .Upsert doc_id external_id doc replaces } io with
    | (.error e, s) => (.error e, s)
    | (.ok (), s) => (.ok (doc_id, seq), s)

/-- `append_delete`. -/
def append_delete (s : SyncedLog Document) (doc_ids : List UInt64) (external_id : String)
    (io : AppendIo) : Except LaurusError UInt64 × SyncedLog Document :=
  match s.ensure_writer codec io with
  | (.error e, s) => (.error e, s)
  | (.ok (), s) =>
    let seq := s.log.next_seq
    let s := { s with log := { s.log with next_seq := seq + 1 } }
    match s.write_record codec { seq, entry := .Delete doc_ids external_id } io with
    | (.error e, s) => (.error e, s)
    | (.ok (), s) => (.ok seq, s)

/-- `flush_wal`. -/
def flush_wal (s : SyncedLog Document) (fault : Option LaurusError) :
    Except LaurusError Unit × SyncedLog Document :=
  s.flush_writer fault

/-- `defer_sync`. -/
def defer_sync (s : SyncedLog Document) : SyncedLog Document :=
  { s with sync_deferral_depth := s.sync_deferral_depth + 1 }

/-- `WalSyncDeferral::drop`. -/
def end_deferral (s : SyncedLog Document) : SyncedLog Document :=
  { s with sync_deferral_depth := s.sync_deferral_depth - 1 }

/-- `truncate_retaining_after` up to the close of the open handle, which is
taken out first. A close syncs what was not. -/
def close_writer (s : SyncedLog Document) (io : TruncateIo) :
    Except LaurusError Unit × SyncedLog Document :=
  if s.log.wal_writer then
    match s.state.dirty, io.sync, io.close with
    | true, some (e, len), _ => (.error e, s.drop_writer len)
    | true, none, some (e, len) =>
      (.error e, { s with synced := (s.log.wal_file.getD []).length }.drop_writer len)
    | false, _, some (e, len) => (.error e, s.drop_writer len)
    | _, _, _ =>
      let len := (s.log.wal_file.getD []).length
      (.ok (), { s with synced := len }.drop_writer len)
  else (.ok (), s)

/-- `truncate_retaining_after`. -/
def truncate_retaining_after (s : SyncedLog Document) (retain_after_seq : UInt64)
    (io : TruncateIo) : Except LaurusError Unit × SyncedLog Document :=
  match s.close_writer io with
  | (.error e, s) => (.error e, s)
  | (.ok (), s) =>
    if s.log.last_seq ≤ retain_after_seq then
      match io.create with
      | some e => (.error e, s)
      | none =>
        let s := { s with log := { s.log with wal_file := some [] }, synced := 0 }
        match io.created with
        | some e => (.error e, s)
        | none => (.ok (), s)
    else
      match io.read with
      | some e => (.error e, s)
      | none =>
        match s.log.read_wal codec with
        | (.error e, log) => (.error e, { s with log })
        | (.ok (records, _), log) =>
          { s with log }.rewrite_wal codec
            (records.filter fun record => retain_after_seq < record.seq) io.rewrite

/-- The log of a process that opens the files again, once the handle that
was open is dropped. -/
def reopen (s : SyncedLog Document) (len : ℕ) (checkpoint : UInt64) :
    Except LaurusError (List (LogRecord Document)) × DocumentLog Document :=
  (s.drop_writer len).log.reopen codec checkpoint

end SyncedLog

end Laurus
