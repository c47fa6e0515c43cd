import Laurus.Common.Bytes
import Laurus.Store.Helpers.Frames

/-!
# What each operation of the log does

`Holds codec log records` is the log's invariant: a scan of its file finds
`records`, a version 4 file that is not torn is whole frames, an open handle
is on a version 4 file, and every record is below the next sequence number.
Each operation is stated once over it.
-/

namespace Laurus

open Laurus.Framing

variable {Document : Type} {codec : WalCodec Document}

/-- The document a record inserts. -/
def LogRecord.upserted (record : LogRecord Document) : Option UInt64 :=
  match record.entry with
  | .Upsert doc_id _ _ _ => some doc_id
  | .Delete _ _ => none

/-! ## What a scan's counters say -/

namespace WalScan

/-- The counters of a scan are the greatest of its records', or 0. -/
structure Tight (scan : WalScan Document) : Prop where
  seq_le : ∀ record ∈ scan.records, record.seq ≤ scan.max_seq
  seq_mem : scan.max_seq = 0 ∨ ∃ record ∈ scan.records, record.seq = scan.max_seq
  doc_le : ∀ record ∈ scan.records, ∀ doc_id ∈ record.upserted, doc_id ≤ scan.max_doc_id
  doc_mem : scan.max_doc_id = 0 ∨
    ∃ record ∈ scan.records, scan.max_doc_id ∈ record.upserted

theorem Tight.push {scan : WalScan Document} (h : scan.Tight) (record : LogRecord Document)
    (position : ℕ) : (scan.push record position).Tight := by
  have hmem : record ∈ scan.records ++ [record] := by simp
  refine ⟨?_, ?_, ?_, ?_⟩
  · intro r hr
    dsimp only [WalScan.push] at hr ⊢
    rcases List.mem_append.1 hr with hr | hr
    · split
      · exact UInt64.le_of_lt (UInt64.lt_of_le_of_lt (h.seq_le r hr) ‹_›)
      · exact h.seq_le r hr
    grind
  · dsimp only [WalScan.push]
    split
    · exact Or.inr ⟨record, hmem, rfl⟩
    · refine h.seq_mem.imp id ?_
      grind
  · intro r hr doc_id hdoc
    dsimp only [WalScan.push] at hr ⊢
    rcases List.mem_append.1 hr with hr | hr
    · have hle := h.doc_le r hr doc_id hdoc
      grind
    · rw [List.mem_singleton.1 hr] at hdoc
      unfold LogRecord.upserted at hdoc
      grind
  · have hold : scan.max_doc_id = 0 ∨
        ∃ r ∈ scan.records ++ [record], scan.max_doc_id ∈ r.upserted := by
      refine h.doc_mem.imp id ?_
      grind
    dsimp only [WalScan.push]
    cases hentry : record.entry with
    | Upsert id external_id document replaces =>
        grind [LogRecord.upserted]
    | Delete doc_ids external_id =>
        dsimp only
        exact hold

end WalScan

theorem read_loop_tight {format : WalFormat} : ∀ (fuel : ℕ) (bytes : Bytes)
    {scan : WalScan Document}, scan.Tight → (codec.read_loop format fuel bytes scan).Tight
  | 0, _, _, h => h
  | fuel + 1, bytes, scan, h => by
      unfold WalCodec.read_loop
      cases codec.read_frame format bytes with
      | none => exact h
      | some out => exact read_loop_tight fuel _ (h.push out.1 _)

theorem scan_file_tight (codec : WalCodec Document) (format : WalFormat) (bytes : Bytes) :
    (codec.scan_file format bytes).Tight :=
  read_loop_tight _ _ ⟨by simp, Or.inl rfl, by simp, Or.inl rfl⟩

namespace DocumentLog

/-- The bytes of the log file, none when there is no file. -/
def contents (log : DocumentLog Document) : Bytes := log.wal_file.getD []

/-- Two logs differ in their counters alone. -/
structure SameFile (log log' : DocumentLog Document) : Prop where
  wal_path : log'.wal_path = log.wal_path
  wal_file : log'.wal_file = log.wal_file
  wal_writer : log'.wal_writer = log.wal_writer
  torn : log'.torn = log.torn
  doc_store : log'.doc_store = log.doc_store

theorem SameFile.contents {log log' : DocumentLog Document} (h : SameFile log log') :
    log'.contents = log.contents := by
  rw [DocumentLog.contents, h.wal_file, DocumentLog.contents]

theorem SameFile.refl (log : DocumentLog Document) : SameFile log log := ⟨rfl, rfl, rfl, rfl, rfl⟩

theorem SameFile.trans {log log' log'' : DocumentLog Document} (h : SameFile log log')
    (h' : SameFile log' log'') : SameFile log log'' :=
  ⟨h'.wal_path.trans h.wal_path, h'.wal_file.trans h.wal_file, h'.wal_writer.trans h.wal_writer,
    h'.torn.trans h.torn, h'.doc_store.trans h.doc_store⟩

theorem set_next_doc_id_same (log : DocumentLog Document) (id : UInt64) :
    SameFile log (log.set_next_doc_id id) := by
  unfold set_next_doc_id
  split
  · exact ⟨rfl, rfl, rfl, rfl, rfl⟩
  · exact .refl log

theorem raise_next_doc_id_same (log : DocumentLog Document) (max_doc_id : UInt64) :
    SameFile log (log.raise_next_doc_id max_doc_id) := by
  unfold raise_next_doc_id
  split
  · exact ⟨rfl, rfl, rfl, rfl, rfl⟩
  · exact .refl log

theorem raise_next_seq_same (log : DocumentLog Document) (max_seq : UInt64) :
    SameFile log (log.raise_next_seq max_seq) := by
  unfold raise_next_seq
  split
  · exact ⟨rfl, rfl, rfl, rfl, rfl⟩
  · exact .refl log

/-- The log that `read_wal` leaves, of a file it knows. -/
def recount (codec : WalCodec Document) (log : DocumentLog Document) : DocumentLog Document :=
  match log.wal_file with
  | none => log.set_next_doc_id log.doc_store.next_doc_id
  | some bytes => log.raise_counters (codec.scan_file (detect_existing_format bytes) bytes)

theorem recount_same (codec : WalCodec Document) (log : DocumentLog Document) : SameFile log (log.recount codec) := by
  unfold recount
  split
  · exact set_next_doc_id_same _ _
  · exact ((raise_next_seq_same log _).trans (raise_next_doc_id_same _ _)).trans
      (set_next_doc_id_same _ _)

/-- **What `read_wal` returns** of a file it knows. -/
theorem read_wal_eq {log : DocumentLog Document}
    (h : ∀ version, detect_existing_format log.contents ≠ .Unknown version) :
    log.read_wal codec = (.ok (codec.records_of log.contents,
      if codec.valid_len log.contents < log.contents.length then
        some (codec.valid_len log.contents) else none), log.recount codec) := by
  unfold read_wal recount contents at *
  cases hfile : log.wal_file with
  | none =>
      obtain ⟨hnil, hlen⟩ := codec.records_of_nil
      grind
  | some bytes =>
      dsimp only
      split
      · grind
      · rfl

/-! ## Counters -/

/-- The sequence counter is above every record. -/
structure SeqsBelow (log : DocumentLog Document) (records : List (LogRecord Document)) : Prop where
  pos : 0 < log.next_seq
  below : ∀ record ∈ records, record.seq < log.next_seq

/-- The document counter is above every record's document, and no lower than
the document store's. -/
structure DocsBelow (log : DocumentLog Document) (records : List (LogRecord Document)) : Prop where
  pos : 0 < log.next_doc_id
  below : ∀ record ∈ records, ∀ doc_id ∈ record.upserted, doc_id < log.next_doc_id
  store : log.doc_store.next_doc_id ≤ log.next_doc_id

variable {log : DocumentLog Document}

theorem set_next_doc_id_next_seq (id : UInt64) :
    (log.set_next_doc_id id).next_seq = log.next_seq := by
  unfold set_next_doc_id
  split <;> rfl

theorem raise_next_doc_id_next_seq (max_doc_id : UInt64) :
    (log.raise_next_doc_id max_doc_id).next_seq = log.next_seq := by
  unfold raise_next_doc_id
  split <;> rfl

theorem raise_next_seq_next_doc_id (max_seq : UInt64) :
    (log.raise_next_seq max_seq).next_doc_id = log.next_doc_id := by
  unfold raise_next_seq
  split <;> rfl

theorem max_seq_cases {scan : WalScan Document} (h : scan.Tight) {P : UInt64 → Prop}
    (hzero : P 0) (hmem : ∀ record ∈ scan.records, P record.seq) : P scan.max_seq := by
  grind [WalScan.Tight.seq_mem]

theorem max_doc_id_cases {scan : WalScan Document} (h : scan.Tight) {P : UInt64 → Prop}
    (hzero : P 0) (hmem : ∀ record ∈ scan.records, ∀ doc_id ∈ record.upserted, P doc_id) :
    P scan.max_doc_id := by
  grind [WalScan.Tight.doc_mem]

theorem scan_contents {bytes : Bytes} (h : log.wal_file = some bytes) :
    codec.records_of log.contents =
      (codec.scan_file (detect_existing_format bytes) bytes).records := by
  rw [contents, h]
  rfl

/-- Past records that do not reach the greatest number, the sequence counter
ends up above them, and no lower than it was. -/
theorem recount_seqs (hmax : ∀ record ∈ codec.records_of log.contents, record.seq ≠ MAX_SEQ) :
    log.next_seq ≤ (log.recount codec).next_seq ∧
      ∀ record ∈ codec.records_of log.contents, record.seq < (log.recount codec).next_seq := by
  unfold recount
  cases hfile : log.wal_file with
  | none =>
      grind [set_next_doc_id_next_seq, contents, WalCodec.records_of_nil]
  | some bytes =>
      have htight := scan_file_tight codec (detect_existing_format bytes) bytes
      rw [scan_contents hfile] at hmax ⊢
      have hne : (codec.scan_file (detect_existing_format bytes) bytes).max_seq ≠ MAX_SEQ :=
        max_seq_cases (P := fun seq => seq ≠ MAX_SEQ) htight (by decide) hmax
      dsimp only
      rw [raise_counters, set_next_doc_id_next_seq, raise_next_doc_id_next_seq, raise_next_seq]
      split
      · grind [UInt64.le_of_lt, lt_succ_of_le, WalScan.Tight.seq_le]
      · rename_i hlt
        exact ⟨UInt64.le_refl _, fun record hmem =>
          UInt64.lt_of_le_of_lt (htight.seq_le record hmem) (UInt64.not_le.1 hlt)⟩

theorem recount_next_seq (h : SeqsBelow log (codec.records_of log.contents)) :
    (log.recount codec).next_seq = log.next_seq := by
  unfold recount
  cases hfile : log.wal_file with
  | none => exact set_next_doc_id_next_seq _
  | some bytes =>
      have hbelow := h.below
      rw [scan_contents hfile] at hbelow
      have hlt := max_seq_cases (P := fun seq => seq < log.next_seq)
        (scan_file_tight codec (detect_existing_format bytes) bytes) h.pos hbelow
      dsimp only
      rw [raise_counters, set_next_doc_id_next_seq, raise_next_doc_id_next_seq, raise_next_seq,
        if_neg (UInt64.not_le.2 hlt)]

theorem recount_next_doc_id (h : DocsBelow log (codec.records_of log.contents)) :
    (log.recount codec).next_doc_id = log.next_doc_id := by
  have hset : ∀ l : DocumentLog Document, l.next_doc_id = log.next_doc_id →
      (l.set_next_doc_id log.doc_store.next_doc_id).next_doc_id = log.next_doc_id := by
    intro l hl
    rw [set_next_doc_id, if_neg (UInt64.not_lt.2 (hl ▸ h.store)), hl]
  unfold recount
  cases hfile : log.wal_file with
  | none => exact hset log rfl
  | some bytes =>
      have hbelow := h.below
      rw [scan_contents hfile] at hbelow
      have hlt := max_doc_id_cases (P := fun doc_id => doc_id < log.next_doc_id)
        (scan_file_tight codec (detect_existing_format bytes) bytes) h.pos hbelow
      refine hset _ ?_
      rw [raise_next_doc_id, raise_next_seq_next_doc_id, if_neg (UInt64.not_le.2 hlt),
        raise_next_seq_next_doc_id]

theorem le_max_both (m n : UInt64) : m ≤ max m n ∧ n ≤ max m n := by
  have hmax : max m n = if m ≤ n then n else m := rfl
  grind

theorem le_advance_seq_past (log : DocumentLog Document) (seq : UInt64) :
    log.next_seq ≤ (log.advance_seq_past seq).next_seq := (le_max_both _ _).1

/-! ## The file -/

/-- The log's file holds `records`. -/
structure Holds (codec : WalCodec Document) (log : DocumentLog Document)
    (records : List (LogRecord Document)) : Prop where
  held : codec.records_of log.contents = records
  known : ∀ version, detect_existing_format log.contents ≠ .Unknown version
  /-- Only a torn file ends in something that is not a frame. -/
  whole : log.torn = false → detect_existing_format log.contents = .V4 →
    codec.valid_len log.contents = log.contents.length
  writer : log.wal_writer = true → detect_existing_format log.contents = .V4

variable {records : List (LogRecord Document)}

theorem Holds.of_same {log' : DocumentLog Document} (h : Holds codec log records)
    (hsame : SameFile log log') : Holds codec log' records := by
  have hcontents := hsame.contents
  refine ⟨?_, ?_, ?_, ?_⟩
  · rw [hcontents]
    exact h.held
  · rw [hcontents]
    exact h.known
  · rw [hcontents, hsame.torn]
    exact h.whole
  · rw [hcontents, hsame.wal_writer]
    exact h.writer

/-- A version 4 file of whole frames. -/
theorem holds_v4 {log : DocumentLog Document} {frames : Bytes}
    (hfile : log.wal_file = some (wal_header ++ frames))
    (hframes : (codec.framing .V4).Frames records frames) : Holds codec log records := by
  have hcontents : log.contents = wal_header ++ frames ++ [] := by
    rw [contents, hfile, List.append_nil]
    rfl
  obtain ⟨hheld, hlen⟩ := codec.records_of_v4 hframes (WalCodec.read_frame_nil .V4)
  have hv4 : detect_existing_format log.contents = .V4 := by
    rw [hcontents, List.append_assoc]
    exact WalCodec.detect_wal_header _
  refine ⟨by rw [hcontents]; exact hheld, fun version => by rw [hv4]; simp, fun _ _ => ?_,
    fun _ => hv4⟩
  rw [hcontents, hlen, List.append_nil, List.length_append]
  rfl

theorem holds_nil {log : DocumentLog Document} (hnil : log.contents = [])
    (hwriter : log.wal_writer = false) : Holds codec log [] := by
  have hlegacy : detect_existing_format log.contents = .Legacy := by
    rw [hnil]
    rfl
  refine ⟨by rw [hnil, codec.records_of_nil.1], fun version => ?_, fun _ hf => ?_, fun hf => ?_⟩
  · rw [hlegacy]
    simp
  · rw [hlegacy] at hf
    cases hf
  · rw [hwriter] at hf
    cases hf

theorem Holds.v4_frames (h : Holds codec log records) (htorn : log.torn = false)
    (hv4 : detect_existing_format log.contents = .V4) :
    ∃ frames, log.contents = wal_header ++ frames ∧
      (codec.framing .V4).Frames records frames := by
  obtain ⟨frames, rest, hbytes, hlen, hframes, -⟩ := codec.records_of_frames log.contents
  have hheader := WalCodec.header_of_v4 hv4
  have hwhole := h.whole htorn hv4
  rw [hv4] at hbytes hlen hframes
  rw [h.held] at hframes
  have hrest : rest = [] := by
    grind [List.length_append, List.length_eq_zero_iff]
  refine ⟨frames, ?_, hframes⟩
  rw [hrest, List.append_nil] at hbytes
  rw [hbytes, show WalFormat.V4.header_len = WAL_HEADER_LEN from rfl, hheader]

/-! ## The operations -/

theorem Holds.read_wal (h : Holds codec log records) :
    ∃ cut_at, log.read_wal codec = (.ok (records, cut_at), log.recount codec) :=
  ⟨_, by rw [read_wal_eq h.known, h.held]⟩

theorem read_all_unknown (codec : WalCodec Document) {version : UInt8}
    (h : detect_existing_format log.contents = .Unknown version) :
    log.read_all codec = (.error (log.unknown_version_error version), log) := by
  unfold read_all read_wal
  unfold contents at h
  cases hfile : log.wal_file with
  | none =>
      rw [hfile] at h
      cases h
  | some bytes =>
      grind

/-- **What `read_all` does to a closed log**: the file is cut to its whole
frames. -/
theorem read_all_eq (codec : WalCodec Document) (hwriter : log.wal_writer = false)
    (h : ∀ version, detect_existing_format log.contents ≠ .Unknown version) :
    log.read_all codec = (.ok (codec.records_of log.contents),
      { log.recount codec with
        wal_file := log.wal_file.map (List.take (codec.valid_len log.contents)) }) := by
  have hsame := log.recount_same codec
  unfold read_all
  rw [read_wal_eq h]
  by_cases hshort : codec.valid_len log.contents < log.contents.length
  · rw [if_pos hshort]
    dsimp only
    rw [if_neg (by rw [hsame.wal_writer, hwriter]; exact Bool.false_ne_true), cut_wal,
      hsame.wal_file]
  · rw [if_neg hshort]
    -- nothing to cut: the whole file is its own beginning
    have hwhole : log.wal_file.map (List.take (codec.valid_len log.contents)) =
        (log.recount codec).wal_file := by
      rw [hsame.wal_file]
      unfold contents at hshort ⊢
      cases hfile : log.wal_file with
      | none => rfl
      | some bytes =>
          grind [List.take_of_length_le]
    rw [hwhole]

theorem read_all_holds (codec : WalCodec Document) (hwriter : log.wal_writer = false)
    (h : ∀ version, detect_existing_format log.contents ≠ .Unknown version) :
    Holds codec { log.recount codec with
      wal_file := log.wal_file.map (List.take (codec.valid_len log.contents)) }
      (codec.records_of log.contents) := by
  obtain ⟨hheld, hwhole, hformat⟩ := codec.records_of_cut log.contents
  have hcontents : DocumentLog.contents { log.recount codec with
      wal_file := log.wal_file.map (List.take (codec.valid_len log.contents)) } =
      log.contents.take (codec.valid_len log.contents) := by
    unfold contents
    cases log.wal_file with
    | none => simp
    | some bytes => rfl
  refine ⟨?_, fun version => ?_, fun _ _ => ?_, fun hw => ?_⟩
  · rw [hcontents]
    exact hheld
  · grind
  · rw [hcontents]
    exact hwhole
  · have hopen : (log.recount codec).wal_writer = true := hw
    rw [(log.recount_same codec).wal_writer, hwriter] at hopen
    cases hopen

/-- The log of a process that opens the files, its counter past a checkpoint. -/
theorem opening_eq (wal_path : String) (wal_file : Option Bytes) (storage : DocStorage)
    (checkpoint : UInt64) :
    let log : DocumentLog Document := (new wal_path wal_file storage).advance_seq_past checkpoint
    log.contents = wal_file.getD [] ∧ log.wal_writer = false ∧ log.wal_file = wal_file ∧
      log.wal_path = wal_path ∧ 0 < log.next_seq ∧ log.next_doc_id = 1 ∧
      log.doc_store = UnifiedDocumentStore.load storage := by
  refine ⟨rfl, rfl, rfl, rfl, ?_, rfl, rfl⟩
  have hone : (0 : UInt64) < 1 := by decide
  exact UInt64.lt_of_lt_of_le hone
    (le_advance_seq_past (new wal_path wal_file storage) checkpoint)

theorem rewrite_wal_cases (hcodec : codec.Lawful) (log : DocumentLog Document)
    (records : List (LogRecord Document)) :
    (∃ e, log.rewrite_wal codec records = (.error e, log)) ∨
    ∃ file, log.rewrite_wal codec records = (.ok (), { log with wal_file := some file }) ∧
      Holds codec { log with wal_file := some file } records ∧
      detect_existing_format file = .V4 := by
  unfold rewrite_wal
  cases hframes : records.mapM codec.record_frame with
  | error e => exact Or.inl ⟨e, rfl⟩
  | ok frames =>
      grind [holds_v4, WalCodec.frames_of_mapM, WalCodec.detect_wal_header]

/-- What opening a writer leaves: the records and the counters as they were. -/
structure Opened (codec : WalCodec Document) (log log' : DocumentLog Document)
    (records : List (LogRecord Document)) (result : Except LaurusError Unit) : Prop where
  holds : Holds codec log' records
  next_seq : SeqsBelow log records → log'.next_seq = log.next_seq
  next_doc_id : DocsBelow log records → log'.next_doc_id = log.next_doc_id
  doc_store : log'.doc_store = log.doc_store
  wal_path : log'.wal_path = log.wal_path
  /-- An open writer is on a file that is not torn. -/
  ready : result = .ok () → log'.torn = false ∧ log'.wal_writer = true

/-- What opening a writer can do to a new file or to one of version 4. -/
theorem open_writer_cases (log : DocumentLog Document) (fault : Option AppendFault) :
    (∃ e, log.open_writer fault = (.error e, log)) ∨
    (log.contents = [] ∧ ∃ e k, k ≤ 4 ∧
      log.open_writer fault = (.error e, { log with wal_file := some (wal_header.take k) })) ∨
    (log.contents = [] ∧
      log.open_writer fault = (.ok (), { log with wal_file := some wal_header, wal_writer := true })) ∨
    (log.contents ≠ [] ∧ log.open_writer fault = (.ok (), { log with wal_writer := true })) := by
  by_cases hnil : log.contents = []
  · have hnil' : log.wal_file.getD [] = [] := hnil
    cases fault with
    | none => exact Or.inr (Or.inr (Or.inl ⟨hnil, if_pos hnil'⟩))
    | some fault =>
        cases fault with
        | start e => exact Or.inl ⟨e, rfl⟩
        | header e written =>
            exact Or.inr (Or.inl ⟨hnil, e, min written 4, Nat.min_le_right _ _, if_pos hnil'⟩)
        | frame e written => exact Or.inr (Or.inr (Or.inl ⟨hnil, if_pos hnil'⟩))
  · have hnil' : ¬ log.wal_file.getD [] = [] := hnil
    cases fault with
    | none => exact Or.inr (Or.inr (Or.inr ⟨hnil, if_neg hnil'⟩))
    | some fault =>
        cases fault with
        | start e => exact Or.inl ⟨e, rfl⟩
        | header e written => exact Or.inr (Or.inr (Or.inr ⟨hnil, if_neg hnil'⟩))
        | frame e written => exact Or.inr (Or.inr (Or.inr ⟨hnil, if_neg hnil'⟩))

theorem open_writer_opened (h : Holds codec log records) (htorn : log.torn = false)
    (hv4 : log.contents = [] ∨ detect_existing_format log.contents = .V4)
    (fault : Option AppendFault) :
    Opened codec log (log.open_writer fault).2 records (log.open_writer fault).1 := by
  have hempty : log.contents = [] → records = [] := by
    intro hnil
    rw [← h.held, hnil, codec.records_of_nil.1]
  rcases log.open_writer_cases fault with
    ⟨e, heq⟩ | ⟨hnil, e, k, hk, heq⟩ | ⟨hnil, heq⟩ | ⟨hne, heq⟩
  · rw [heq]
    exact ⟨h, fun _ => rfl, fun _ => rfl, rfl, rfl, by simp⟩
  · rw [heq]
    obtain ⟨hlegacy, hnone⟩ := codec.records_of_short_header hk
    refine ⟨⟨hnone.trans (hempty hnil).symm, fun version => ?_, fun _ hf => ?_, fun hw => ?_⟩,
      fun _ => rfl, fun _ => rfl, rfl, rfl, by simp⟩
    · show detect_existing_format (wal_header.take k) ≠ _
      rw [hlegacy]
      simp
    · have hf' : detect_existing_format (wal_header.take k) = .V4 := hf
      rw [hlegacy] at hf'
      cases hf'
    · have hwas := h.writer hw
      rw [hnil] at hwas
      cases hwas
  · rw [heq, hempty hnil]
    have hfile : some wal_header = some (wal_header ++ []) := by rw [List.append_nil]
    exact ⟨holds_v4 hfile Frames.nil, fun _ => rfl, fun _ => rfl, rfl, rfl,
      fun _ => ⟨htorn, rfl⟩⟩
  · rw [heq]
    exact ⟨⟨h.held, h.known, h.whole, fun _ => hv4.resolve_left hne⟩, fun _ => rfl, fun _ => rfl,
      rfl, rfl, fun _ => ⟨htorn, rfl⟩⟩

theorem upgrade_opened (hcodec : codec.Lawful) (h : Holds codec log records)
    (htorn : log.torn = false) (fault : Option AppendFault) :
    let out := match log.upgrade codec with
      | (.ok (), log) => log.open_writer fault
      | (.error e, log) => (.error e, log)
    Opened codec log out.2 records out.1 := by
  obtain ⟨cut_at, hread⟩ := h.read_wal
  have hsame := log.recount_same codec
  have hseq : SeqsBelow log records → (log.recount codec).next_seq = log.next_seq :=
    fun hbelow => recount_next_seq (by rw [h.held]; exact hbelow)
  have hdoc : DocsBelow log records → (log.recount codec).next_doc_id = log.next_doc_id :=
    fun hbelow => recount_next_doc_id (by rw [h.held]; exact hbelow)
  have hupgrade : log.upgrade codec = (log.recount codec).rewrite_wal codec records := by
    rw [upgrade, hread]
  rw [hupgrade]
  rcases rewrite_wal_cases hcodec (log.recount codec) records with
    ⟨e, heq⟩ | ⟨file, heq, hholds, hv4⟩
  · rw [heq]
    exact ⟨h.of_same hsame, hseq, hdoc, hsame.doc_store, hsame.wal_path, by simp⟩
  · rw [heq]
    have hopen := open_writer_opened hholds (hsame.torn.trans htorn) (Or.inr hv4) fault
    refine ⟨hopen.holds, fun hbelow => ?_, fun hbelow => ?_, hopen.doc_store.trans hsame.doc_store,
      hopen.wal_path.trans hsame.wal_path, hopen.ready⟩
    · refine (hopen.next_seq ⟨?_, ?_⟩).trans (hseq hbelow)
      · show 0 < (log.recount codec).next_seq
        rw [hseq hbelow]
        exact hbelow.pos
      grind [SeqsBelow.below]
    · refine (hopen.next_doc_id ⟨?_, ?_, ?_⟩).trans (hdoc hbelow)
      · show 0 < (log.recount codec).next_doc_id
        rw [hdoc hbelow]
        exact hbelow.pos
      · grind [DocsBelow.below]
      · show (log.recount codec).doc_store.next_doc_id ≤ (log.recount codec).next_doc_id
        rw [hdoc hbelow, hsame.doc_store]
        exact hbelow.store

theorem ensure_writer_opened (hcodec : codec.Lawful) (h : Holds codec log records)
    (fault : Option AppendFault) :
    Opened codec log (log.ensure_writer codec fault).2 records
      (log.ensure_writer codec fault).1 := by
  have hstay : ∀ e, Opened codec log log records (.error e) := fun e =>
    ⟨h, fun _ => rfl, fun _ => rfl, rfl, rfl, by simp⟩
  by_cases htorn : log.torn = true
  · rw [ensure_writer, if_pos htorn]
    exact hstay _
  have htorn' : log.torn = false := by simpa using htorn
  by_cases hwriter : log.wal_writer = true
  · rw [ensure_writer, if_neg htorn, if_pos hwriter]
    exact ⟨h, fun _ => rfl, fun _ => rfl, rfl, rfl, fun _ => ⟨htorn', hwriter⟩⟩
  by_cases hnil : log.contents = []
  · have hnil' : log.wal_file.getD [] = [] := hnil
    rw [ensure_writer, if_neg htorn, if_neg hwriter, if_pos hnil']
    exact open_writer_opened h htorn' (Or.inl hnil) fault
  have hnil' : ¬ log.wal_file.getD [] = [] := hnil
  have hupgrade := upgrade_opened hcodec h htorn' fault
  rw [ensure_writer, if_neg htorn, if_neg hwriter, if_neg hnil',
    show log.wal_file.getD [] = log.contents from rfl]
  grind [open_writer_opened]

/-- What writing a record leaves: it is in the file when it is acknowledged,
and not when it is refused. -/
structure Wrote (codec : WalCodec Document) (log log' : DocumentLog Document)
    (records : List (LogRecord Document)) (record : LogRecord Document)
    (result : Except LaurusError Unit) : Prop where
  holds : Holds codec log' (match result with
    | .ok () => records ++ [record]
    | .error _ => records)
  next_seq : log'.next_seq = log.next_seq
  next_doc_id : log'.next_doc_id = log.next_doc_id
  doc_store : log'.doc_store = log.doc_store
  wal_path : log'.wal_path = log.wal_path

theorem write_record_wrote (hcodec : codec.Lawful) (h : Holds codec log records)
    (htorn : log.torn = false) (hwriter : log.wal_writer = true) (record : LogRecord Document)
    (fault : Option AppendFault) :
    Wrote codec log (log.write_record codec record fault).2 records record
      (log.write_record codec record fault).1 := by
  obtain ⟨frames, hcontents, hframes⟩ := h.v4_frames htorn (h.writer hwriter)
  unfold write_record
  rw [show log.wal_file.getD [] = log.contents from rfl, hcontents]
  cases hframe : codec.record_frame record with
  | error e => exact ⟨h, rfl, rfl, rfl, rfl⟩
  | ok frame =>
      have hisframe := WalCodec.isFrame_record_frame hcodec hframe
      have hfull : Holds codec { log with wal_file := some (wal_header ++ frames ++ frame) }
          (records ++ [record]) :=
        holds_v4 (congrArg some (List.append_assoc _ _ _)) (hframes.append hisframe.frames)
      -- a frame cut short is none, so the file holds what it did
      have hcut : ∀ k, k < frame.length → Holds codec
          { log with wal_file := some (wal_header ++ frames ++ frame.take k), torn := true }
          records := by
        intro k hk
        have hrest : codec.read_frame .V4 (frame.take k) = none := hisframe.read_take hk
        obtain ⟨hheld, hlen⟩ := codec.records_of_v4 hframes hrest
        have hv4 : detect_existing_format (wal_header ++ frames ++ frame.take k) = .V4 := by
          exact WalCodec.detect_wal_header _
        refine ⟨hheld, fun version hversion => ?_, fun hf => Bool.noConfusion hf, fun _ => hv4⟩
        have hboth := hv4.symm.trans hversion
        cases hboth
      have hpos := hisframe.pos
      cases fault with
      | none => exact ⟨hfull, rfl, rfl, rfl, rfl⟩
      | some fault =>
          cases fault with
          | start e => exact ⟨hfull, rfl, rfl, rfl, rfl⟩
          | header e written => exact ⟨hfull, rfl, rfl, rfl, rfl⟩
          | frame e written => exact ⟨hcut _ (by omega), rfl, rfl, rfl, rfl⟩

variable {log' : DocumentLog Document}

theorem SeqsBelow.ne_max (h : SeqsBelow log records) :
    ∀ record ∈ records, record.seq ≠ MAX_SEQ := by
  intro record hmem hmax
  have hlt := h.below record hmem
  rw [hmax, UInt64.lt_iff_toNat_lt] at hlt
  have hbound := log.next_seq.toNat_lt
  have : MAX_SEQ.toNat = 2 ^ 64 - 1 := rfl
  omega

theorem SeqsBelow.append (h : SeqsBelow log records) (hmax : log.next_seq ≠ MAX_SEQ)
    {record : LogRecord Document} (hseq : record.seq = log.next_seq)
    (hnext : log'.next_seq = log.next_seq + 1) : SeqsBelow log' (records ++ [record]) := by
  have hlt : log.next_seq < log'.next_seq := by
    rw [hnext]
    exact lt_succ hmax
  refine ⟨UInt64.lt_trans h.pos hlt, fun r hr => ?_⟩
  rcases List.mem_append.1 hr with hr | hr
  · exact UInt64.lt_trans (h.below r hr) hlt
  grind

theorem SeqsBelow.mono (h : SeqsBelow log records) (hle : log.next_seq ≤ log'.next_seq)
    {kept : List (LogRecord Document)} (hsub : kept ⊆ records) : SeqsBelow log' kept :=
  ⟨UInt64.lt_of_lt_of_le h.pos hle,
    fun r hr => UInt64.lt_of_lt_of_le (h.below r (hsub hr)) hle⟩

theorem SeqsBelow.failed (h : SeqsBelow log records) (hmax : log.next_seq ≠ MAX_SEQ)
    (hnext : log'.next_seq = log.next_seq ∨ log'.next_seq = log.next_seq + 1) :
    SeqsBelow log' records := by
  grind [mono, UInt64.le_of_lt, lt_succ]

theorem append_put_spec (hcodec : codec.Lawful) (h : Holds codec log records)
    (external_id : String) (doc : Document) (replaces : List UInt64) (fault : Option AppendFault) :
    match log.append_put codec external_id doc replaces fault with
    | (.ok (doc_id, seq), log') =>
      Holds codec log'
        (records ++ [{ seq, entry := .Upsert doc_id external_id doc replaces }]) ∧
      (SeqsBelow log records → seq = log.next_seq ∧ log'.next_seq = log.next_seq + 1) ∧
      (DocsBelow log records → doc_id = log.next_doc_id ∧
        log'.next_doc_id = log.next_doc_id + 1) ∧
      log'.doc_store = log.doc_store
    | (.error _, log') =>
      Holds codec log' records ∧
      (SeqsBelow log records → log'.next_seq = log.next_seq ∨
        log'.next_seq = log.next_seq + 1) ∧
      (DocsBelow log records → log'.next_doc_id = log.next_doc_id ∨
        log'.next_doc_id = log.next_doc_id + 1) ∧
      log'.doc_store = log.doc_store := by
  have hopened := ensure_writer_opened hcodec h fault
  unfold append_put
  cases hensure : log.ensure_writer codec fault with
  | mk result log₁ =>
      rw [hensure] at hopened
      cases result with
      | error e =>
          grind [Opened.holds, Opened.next_seq, Opened.next_doc_id, Opened.doc_store]
      | ok done =>
          obtain ⟨htorn, hwriter⟩ := hopened.ready rfl
          dsimp only
          set log₂ := { log₁ with next_doc_id := log₁.next_doc_id + 1,
                                  next_seq := log₁.next_seq + 1 } with hlog₂
          set record : LogRecord Document :=
            ⟨log₁.next_seq, .Upsert log₁.next_doc_id external_id doc replaces⟩ with hrecord
          have hholds : Holds codec log₂ records := hopened.holds.of_same ⟨rfl, rfl, rfl, rfl, rfl⟩
          have hwrote := write_record_wrote hcodec hholds htorn hwriter record fault
          have hseq : SeqsBelow log records → log₁.next_seq = log.next_seq := hopened.next_seq
          have hdoc : DocsBelow log records → log₁.next_doc_id = log.next_doc_id :=
            hopened.next_doc_id
          have hseq₂ : log₂.next_seq = log₁.next_seq + 1 := rfl
          have hdoc₂ : log₂.next_doc_id = log₁.next_doc_id + 1 := rfl
          cases hwrite : log₂.write_record codec record fault with
          | mk result log₃ =>
              rw [hwrite] at hwrote
              cases result with
              | error e =>
                  refine ⟨hwrote.holds, fun hbelow => Or.inr ?_, fun hbelow => Or.inr ?_,
                    hwrote.doc_store.trans hopened.doc_store⟩
                  · rw [hwrote.next_seq, hseq₂, hseq hbelow]
                  · rw [hwrote.next_doc_id, hdoc₂, hdoc hbelow]
              | ok done =>
                  refine ⟨hwrote.holds, fun hbelow => ⟨hseq hbelow, ?_⟩, fun hbelow =>
                    ⟨hdoc hbelow, ?_⟩, hwrote.doc_store.trans hopened.doc_store⟩
                  · rw [hwrote.next_seq, hseq₂, hseq hbelow]
                  · rw [hwrote.next_doc_id, hdoc₂, hdoc hbelow]

theorem append_delete_spec (hcodec : codec.Lawful) (h : Holds codec log records)
    (doc_ids : List UInt64) (external_id : String) (fault : Option AppendFault) :
    match log.append_delete codec doc_ids external_id fault with
    | (.ok seq, log') =>
      Holds codec log' (records ++ [{ seq, entry := .Delete doc_ids external_id }]) ∧
      (SeqsBelow log records → seq = log.next_seq ∧ log'.next_seq = log.next_seq + 1) ∧
      (DocsBelow log records → log'.next_doc_id = log.next_doc_id) ∧
      log'.doc_store = log.doc_store
    | (.error _, log') =>
      Holds codec log' records ∧
      (SeqsBelow log records → log'.next_seq = log.next_seq ∨
        log'.next_seq = log.next_seq + 1) ∧
      (DocsBelow log records → log'.next_doc_id = log.next_doc_id) ∧
      log'.doc_store = log.doc_store := by
  have hopened := ensure_writer_opened hcodec h fault
  unfold append_delete
  cases hensure : log.ensure_writer codec fault with
  | mk result log₁ =>
      rw [hensure] at hopened
      cases result with
      | error e =>
          grind [Opened.holds, Opened.next_seq, Opened.next_doc_id, Opened.doc_store]
      | ok done =>
          obtain ⟨htorn, hwriter⟩ := hopened.ready rfl
          dsimp only
          set log₂ := { log₁ with next_seq := log₁.next_seq + 1 } with hlog₂
          set record : LogRecord Document :=
            ⟨log₁.next_seq, .Delete doc_ids external_id⟩ with hrecord
          have hholds : Holds codec log₂ records := hopened.holds.of_same ⟨rfl, rfl, rfl, rfl, rfl⟩
          have hwrote := write_record_wrote hcodec hholds htorn hwriter record fault
          have hseq : SeqsBelow log records → log₁.next_seq = log.next_seq := hopened.next_seq
          have hseq₂ : log₂.next_seq = log₁.next_seq + 1 := rfl
          have hdoc₂ : log₂.next_doc_id = log₁.next_doc_id := rfl
          cases hwrite : log₂.write_record codec record fault with
          | mk result log₃ =>
              rw [hwrite] at hwrote
              have hdoc : DocsBelow log records → log₃.next_doc_id = log.next_doc_id := by
                intro hbelow
                rw [hwrote.next_doc_id, hdoc₂, hopened.next_doc_id hbelow]
              cases result with
              | error e =>
                  refine ⟨hwrote.holds, fun hbelow => Or.inr ?_, hdoc,
                    hwrote.doc_store.trans hopened.doc_store⟩
                  rw [hwrote.next_seq, hseq₂, hseq hbelow]
              | ok done =>
                  refine ⟨hwrote.holds, fun hbelow => ⟨hseq hbelow, ?_⟩, hdoc,
                    hwrote.doc_store.trans hopened.doc_store⟩
                  rw [hwrote.next_seq, hseq₂, hseq hbelow]

theorem le_last_seq (log : DocumentLog Document) {seq : UInt64} (h : seq < log.next_seq) : seq ≤ log.last_seq := by
  have hpos : log.next_seq ≠ 0 := by grind
  have hone : (1 : UInt64) ≤ log.next_seq := by grind
  rw [UInt64.lt_iff_toNat_lt] at h
  rw [last_seq, if_neg hpos, UInt64.le_iff_toNat_le, UInt64.toNat_sub_of_le _ _ hone,
    UInt64.toNat_one]
  omega

/-- **Truncation keeps the records above the checkpoint**, by either path. -/
theorem truncate_spec (hcodec : codec.Lawful) (h : Holds codec log records)
    (hseq : SeqsBelow log records) (retain_after_seq : UInt64) :
    match log.truncate_retaining_after codec retain_after_seq with
    | (.ok (), log') =>
      Holds codec log' (records.filter fun record => retain_after_seq < record.seq) ∧
        log'.next_seq = log.next_seq ∧
        (DocsBelow log records → log'.next_doc_id = log.next_doc_id) ∧
        log'.doc_store = log.doc_store
    | (.error _, log') =>
      Holds codec log' records ∧ log'.next_seq = log.next_seq ∧
        (DocsBelow log records → log'.next_doc_id = log.next_doc_id) ∧
        log'.doc_store = log.doc_store := by
  set closed := { log with wal_writer := false } with hclosed
  have hholds : Holds codec closed records := ⟨h.held, h.known, h.whole, fun hf => by cases hf⟩
  unfold truncate_retaining_after
  by_cases hfast : closed.last_seq ≤ retain_after_seq
  · rw [if_pos hfast]
    -- nothing above the checkpoint: the filter keeps nothing either
    have hnone : records.filter (fun record => decide (retain_after_seq < record.seq)) = [] := by
      refine List.filter_eq_nil_iff.2 fun record hmem => ?_
      have hle : record.seq ≤ retain_after_seq :=
        UInt64.le_trans (le_last_seq closed (hseq.below record hmem)) hfast
      simpa using hle
    dsimp only
    rw [hnone]
    exact ⟨holds_nil rfl rfl, rfl, fun _ => rfl, rfl⟩
  · rw [if_neg hfast]
    obtain ⟨cut_at, hread⟩ := hholds.read_wal
    have hsame := closed.recount_same codec
    have hseq' : (closed.recount codec).next_seq = log.next_seq := by
      have hbelow : SeqsBelow closed (codec.records_of closed.contents) := by
        rw [hholds.held]
        exact ⟨hseq.pos, hseq.below⟩
      exact recount_next_seq hbelow
    have hdoc' : DocsBelow log records → (closed.recount codec).next_doc_id = log.next_doc_id := by
      intro hdoc
      have hbelow : DocsBelow closed (codec.records_of closed.contents) := by
        rw [hholds.held]
        exact ⟨hdoc.pos, hdoc.below, hdoc.store⟩
      exact recount_next_doc_id hbelow
    rw [hread]
    dsimp only
    rcases rewrite_wal_cases hcodec (closed.recount codec)
      (records.filter fun record => retain_after_seq < record.seq) with
      ⟨e, heq⟩ | ⟨file, heq, hnew, -⟩
    · rw [heq]
      exact ⟨hholds.of_same hsame, hseq', hdoc', hsame.doc_store⟩
    · rw [heq]
      exact ⟨hnew, hseq', hdoc', hsame.doc_store⟩

end DocumentLog

end Laurus
