import Laurus.Common.Bytes
import Laurus.Store.Helpers.Log

/-!
# The log file refines a list of records

`LongestBeginning` says, of the bytes alone, what a log file holds.
`wal_refines_record_list` says that opening any file reads that and cuts
the file to it, and that from there every run of appends, truncations and
reopens is one of `RecordList.step`: an append adds its record, a
truncation drops the records at or below its number, and a reopen reads
what there is. A record at the greatest sequence number, which wraps the
counter around, is outside of it.
-/

namespace Laurus

open Laurus.Framing DocumentLog

variable {Document : Type} {codec : WalCodec Document}

/-! ## What a file holds -/

/-- `kept` begins the file, and is its header and then one whole frame for
each of `records`. -/
def WholeFrames (codec : WalCodec Document) (file : Bytes) (records : List (LogRecord Document))
    (kept : Bytes) : Prop :=
  let format := detect_existing_format file
  kept <+: file ∧ ∃ frames : List Bytes,
    List.Forall₂ (WalCodec.RecordFrame codec format) frames records ∧
      kept = file.take format.header_len ++ frames.flatten

/-- The longest beginning of complete, checksum-valid records. -/
def LongestBeginning (codec : WalCodec Document) (file : Bytes)
    (records : List (LogRecord Document)) (kept : Bytes) : Prop :=
  WholeFrames codec file records kept ∧
    ∀ records' kept', WholeFrames codec file records' kept' → kept' <+: kept ∧ records' <+: records

theorem frames_iff {format : WalFormat} {records : List (LogRecord Document)} {bytes : Bytes} :
    (codec.framing format).Frames records bytes ↔
      ∃ frames : List Bytes, List.Forall₂ (WalCodec.RecordFrame codec format) frames records ∧
        bytes = frames.flatten := by
  constructor
  · intro h
    induction h with
    | nil => exact ⟨[], List.Forall₂.nil, rfl⟩
    | @cons f bs r rs hf _ ih =>
        obtain ⟨frames, hframes, rfl⟩ := ih
        exact ⟨f :: frames, List.Forall₂.cons (WalCodec.isFrame_iff.1 hf) hframes, rfl⟩
  · rintro ⟨frames, hframes, rfl⟩
    induction hframes with
    | nil => exact Frames.nil
    | cons hf _ ih => exact Frames.cons (WalCodec.isFrame_iff.2 hf) ih

/-- **What a scan keeps is the longest beginning.** -/
theorem longest_beginning (codec : WalCodec Document) (file : Bytes) :
    LongestBeginning codec file (codec.records_of file) (file.take (codec.valid_len file)) := by
  obtain ⟨frames, rest, hfile, hlen, hframes, -⟩ := codec.records_of_frames file
  set format := detect_existing_format file with hformat
  have hheader : (file.take format.header_len).length = format.header_len := by
    have hle := WalCodec.header_len_le file
    grind
  refine ⟨⟨List.take_prefix _ _, ?_⟩, ?_⟩
  · grind [frames_iff]
  · rintro records' kept' ⟨hbegins, list, hlist, hkept'⟩
    obtain ⟨after, hafter⟩ := hbegins
    have hbody : file.drop format.header_len = list.flatten ++ after := by grind
    obtain ⟨hscan, hscanned⟩ := codec.scan_file_eq format file
    have hfuel : (file.drop format.header_len).length < file.length + 1 := by
      rw [List.length_drop]
      omega
    obtain ⟨hrecords, hle⟩ := scan_longest hfuel (frames_iff.2 ⟨list, hlist, rfl⟩) hbody
    grind [WalCodec.valid_len, WalCodec.records_of]

/-! ## Calls on the log -/

/-- A call on an open log, or a restart. -/
inductive WalCall (Document : Type)
  | append_put (external_id : String) (doc : Document) (replaces : List UInt64)
      (fault : Option AppendFault)
  | append_delete (doc_ids : List UInt64) (external_id : String) (fault : Option AppendFault)
  | truncate_retaining_after (retain_after_seq : UInt64)
  /-- The files are opened again, and read. -/
  | reopen (checkpoint : UInt64)

/-- What a call returns. -/
inductive WalReturn (Document : Type)
  | put (doc_id seq : UInt64)
  | deleted (seq : UInt64)
  | truncated
  | read (records : List (LogRecord Document))
  | failed (e : LaurusError)

/-- The log's steps, labelled by the call and what it returned. -/
inductive WalStep (codec : WalCodec Document) :
    DocumentLog Document → WalCall Document × WalReturn Document → DocumentLog Document → Prop
  | put {log log' : DocumentLog Document} {external_id : String} {doc : Document}
      {replaces : List UInt64} {fault : Option AppendFault} {doc_id seq : UInt64} :
      log.append_put codec external_id doc replaces fault = (.ok (doc_id, seq), log') →
      WalStep codec log (.append_put external_id doc replaces fault, .put doc_id seq) log'
  | put_failed {log log' : DocumentLog Document} {external_id : String} {doc : Document}
      {replaces : List UInt64} {fault : Option AppendFault} {e : LaurusError} :
      log.append_put codec external_id doc replaces fault = (.error e, log') →
      WalStep codec log (.append_put external_id doc replaces fault, .failed e) log'
  | deleted {log log' : DocumentLog Document} {doc_ids : List UInt64} {external_id : String}
      {fault : Option AppendFault} {seq : UInt64} :
      log.append_delete codec doc_ids external_id fault = (.ok seq, log') →
      WalStep codec log (.append_delete doc_ids external_id fault, .deleted seq) log'
  | delete_failed {log log' : DocumentLog Document} {doc_ids : List UInt64} {external_id : String}
      {fault : Option AppendFault} {e : LaurusError} :
      log.append_delete codec doc_ids external_id fault = (.error e, log') →
      WalStep codec log (.append_delete doc_ids external_id fault, .failed e) log'
  | truncated {log log' : DocumentLog Document} {retain_after_seq : UInt64} :
      log.truncate_retaining_after codec retain_after_seq = (.ok (), log') →
      WalStep codec log (.truncate_retaining_after retain_after_seq, .truncated) log'
  | truncate_failed {log log' : DocumentLog Document} {retain_after_seq : UInt64}
      {e : LaurusError} :
      log.truncate_retaining_after codec retain_after_seq = (.error e, log') →
      WalStep codec log (.truncate_retaining_after retain_after_seq, .failed e) log'
  | read {log log' : DocumentLog Document} {checkpoint : UInt64}
      {records : List (LogRecord Document)} :
      log.reopen codec checkpoint = (.ok records, log') →
      WalStep codec log (.reopen checkpoint, .read records) log'
  | read_failed {log log' : DocumentLog Document} {checkpoint : UInt64} {e : LaurusError} :
      log.reopen codec checkpoint = (.error e, log') →
      WalStep codec log (.reopen checkpoint, .failed e) log'

/-- The list of records as an object of its own: what a call that returned
so does to it. A reopen returns the list, and does not fail. -/
inductive RecordStep : List (LogRecord Document) → WalCall Document × WalReturn Document →
    List (LogRecord Document) → Prop
  | put {records : List (LogRecord Document)} {external_id : String} {doc : Document}
      {replaces : List UInt64} {fault : Option AppendFault} {doc_id seq : UInt64} :
      RecordStep records (.append_put external_id doc replaces fault, .put doc_id seq)
        (records ++ [{ seq, entry := .Upsert doc_id external_id doc replaces }])
  | put_failed {records : List (LogRecord Document)} {external_id : String} {doc : Document}
      {replaces : List UInt64} {fault : Option AppendFault} {e : LaurusError} :
      RecordStep records (.append_put external_id doc replaces fault, .failed e) records
  | deleted {records : List (LogRecord Document)} {doc_ids : List UInt64} {external_id : String}
      {fault : Option AppendFault} {seq : UInt64} :
      RecordStep records (.append_delete doc_ids external_id fault, .deleted seq)
        (records ++ [{ seq, entry := .Delete doc_ids external_id }])
  | delete_failed {records : List (LogRecord Document)} {doc_ids : List UInt64}
      {external_id : String} {fault : Option AppendFault} {e : LaurusError} :
      RecordStep records (.append_delete doc_ids external_id fault, .failed e) records
  | truncated {records : List (LogRecord Document)} {retain_after_seq : UInt64} :
      RecordStep records (.truncate_retaining_after retain_after_seq, .truncated)
        (records.filter fun record => retain_after_seq < record.seq)
  | truncate_failed {records : List (LogRecord Document)} {retain_after_seq : UInt64}
      {e : LaurusError} :
      RecordStep records (.truncate_retaining_after retain_after_seq, .failed e) records
  | read {records : List (LogRecord Document)} {checkpoint : UInt64} :
      RecordStep records (.reopen checkpoint, .read records) records

/-- No append is made while the counter is at the greatest number. -/
def NoWrap (log : DocumentLog Document) : WalCall Document × WalReturn Document → Prop
  | (.append_put .., _) | (.append_delete .., _) => log.next_seq ≠ MAX_SEQ
  | _ => True

/-! ## The refinement -/

/-- The log's file holds the list, and its counter is above it. -/
structure Refines (codec : WalCodec Document) (log : DocumentLog Document)
    (records : List (LogRecord Document)) : Prop where
  holds : Holds codec log records
  seqs : SeqsBelow log records

variable {log log' : DocumentLog Document} {records : List (LogRecord Document)}

/-- **Opening a file**, of a version that is known. -/
theorem opening_reads (codec : WalCodec Document) (wal_path : String) (wal_file : Option Bytes)
    (storage : DocStorage) (checkpoint : UInt64)
    (hknown : ∀ version, detect_existing_format (wal_file.getD []) ≠ .Unknown version) :
    ∃ log', ((new wal_path wal_file storage).advance_seq_past checkpoint).read_all codec =
        (.ok (codec.records_of (wal_file.getD [])), log') ∧
      log'.wal_file = wal_file.map (List.take (codec.valid_len (wal_file.getD []))) ∧
      Holds codec log' (codec.records_of (wal_file.getD [])) ∧
      ((∀ record ∈ codec.records_of (wal_file.getD []), record.seq ≠ MAX_SEQ) →
        SeqsBelow log' (codec.records_of (wal_file.getD []))) := by
  obtain ⟨hcontents, hwriter, hfile, -, hpos, -⟩ :=
    @opening_eq Document wal_path wal_file storage checkpoint
  rw [← hcontents] at hknown ⊢
  have hread := read_all_eq codec hwriter hknown
  have hholds := read_all_holds codec hwriter hknown
  refine ⟨_, hread, rfl, hholds, fun hmax => ?_⟩
  obtain ⟨hle, hbelow⟩ := recount_seqs hmax
  exact ⟨UInt64.lt_of_lt_of_le hpos hle, hbelow⟩

theorem Refines.reopen (h : Refines codec log records) (checkpoint : UInt64) :
    ∃ log', log.reopen codec checkpoint = (.ok records, log') ∧ Refines codec log' records := by
  obtain ⟨log', hread, -, hholds, hseqs⟩ := opening_reads codec log.wal_path log.wal_file
    log.doc_store.storage checkpoint h.holds.known
  have hheld : codec.records_of (log.wal_file.getD []) = records := h.holds.held
  rw [hheld] at hread hholds hseqs
  exact ⟨log', hread, hholds, hseqs h.seqs.ne_max⟩

/-- **One step of the log is one of the list.** -/
theorem Refines.step (hcodec : codec.Lawful) (h : Refines codec log records)
    {label : WalCall Document × WalReturn Document} (hguard : NoWrap log label)
    (hstep : WalStep codec log label log') :
    ∃ records', RecordStep records label records' ∧ Refines codec log' records' := by
  cases hstep with
  | put heq =>
      rename_i external_id doc replaces fault doc_id seq
      have hspec := append_put_spec hcodec h.holds external_id doc replaces fault
      rw [heq] at hspec
      obtain ⟨hholds, hseq, -⟩ := hspec
      obtain ⟨hnumber, hnext⟩ := hseq h.seqs
      exact ⟨_, .put, hholds, h.seqs.append hguard hnumber hnext⟩
  | put_failed heq =>
      rename_i external_id doc replaces fault e
      have hspec := append_put_spec hcodec h.holds external_id doc replaces fault
      rw [heq] at hspec
      obtain ⟨hholds, hseq, -⟩ := hspec
      exact ⟨_, .put_failed, hholds, h.seqs.failed hguard (hseq h.seqs)⟩
  | deleted heq =>
      rename_i doc_ids external_id fault seq
      have hspec := append_delete_spec hcodec h.holds doc_ids external_id fault
      rw [heq] at hspec
      obtain ⟨hholds, hseq, -⟩ := hspec
      obtain ⟨hnumber, hnext⟩ := hseq h.seqs
      exact ⟨_, .deleted, hholds, h.seqs.append hguard hnumber hnext⟩
  | delete_failed heq =>
      rename_i doc_ids external_id fault e
      have hspec := append_delete_spec hcodec h.holds doc_ids external_id fault
      rw [heq] at hspec
      obtain ⟨hholds, hseq, -⟩ := hspec
      exact ⟨_, .delete_failed, hholds, h.seqs.failed hguard (hseq h.seqs)⟩
  | truncated heq =>
      rename_i retain_after_seq
      have hspec := truncate_spec hcodec h.holds h.seqs retain_after_seq
      rw [heq] at hspec
      obtain ⟨hholds, hnext, -⟩ := hspec
      exact ⟨_, .truncated, hholds,
        h.seqs.mono (by rw [hnext]; exact UInt64.le_refl _) (List.filter_subset_self _)⟩
  | truncate_failed heq =>
      rename_i retain_after_seq e
      have hspec := truncate_spec hcodec h.holds h.seqs retain_after_seq
      rw [heq] at hspec
      obtain ⟨hholds, hnext, -⟩ := hspec
      exact ⟨_, .truncate_failed, hholds,
        h.seqs.mono (by rw [hnext]; exact UInt64.le_refl _) (List.Subset.refl _)⟩
  | read heq =>
      rename_i checkpoint found
      obtain ⟨log₁, hread, hrefines⟩ := h.reopen checkpoint
      rw [heq] at hread
      cases hread
      exact ⟨_, .read, hrefines⟩
  | read_failed heq =>
      rename_i checkpoint e
      obtain ⟨log₁, hread, -⟩ := h.reopen checkpoint
      rw [heq] at hread
      cases hread

/-- **A run of the log is a run of the list.** -/
theorem Refines.run (hcodec : codec.Lawful)
    {labels : List (WalCall Document × WalReturn Document)}
    (hrun : Run (Step.guarded NoWrap (WalStep codec)) log labels log') :
    ∀ {records}, Refines codec log records →
      ∃ records', Run RecordStep records labels records' ∧ Refines codec log' records' := by
  induction hrun with
  | nil log => exact fun h => ⟨_, Run.nil _, h⟩
  | cons hstep _ ih =>
      intro records h
      obtain ⟨records₁, hone, h₁⟩ := h.step hcodec hstep.1 hstep.2
      obtain ⟨records', hrest, h'⟩ := ih h₁
      exact ⟨records', Run.cons hone hrest, h'⟩

/-- A codec of the inserts of nothing: the two numbers, eight bytes each. -/
def sampleWalCodec : WalCodec Unit where
  crc32 := Crc32.checksum
  to_bytes record := match record.entry with
    | .Upsert doc_id external_id _ replaces =>
      if external_id = "" ∧ replaces = [] then
        .ok (Bytes.ofNatLE 8 record.seq.toNat ++ Bytes.ofNatLE 8 doc_id.toNat)
      else .error "not a bare insert"
    | .Delete _ _ => .error "not a bare insert"
  from_bytes bytes :=
    if bytes.length = 16 then
      .ok { seq := UInt64.ofNat (Bytes.toNatLE (bytes.take 8))
            entry := .Upsert (UInt64.ofNat (Bytes.toNatLE (bytes.drop 8))) "" () [] }
    else .error "not a bare insert"
  from_bytes_v3 _ := .error "not a bare insert"
  from_slice _ := .error "not a bare insert"

theorem sampleWalCodec_lawful : sampleWalCodec.Lawful := by
  rintro ⟨seq, entry⟩ bytes h
  cases entry with
  | Delete doc_ids external_id => cases h
  | Upsert doc_id external_id document replaces =>
      simp only [sampleWalCodec] at h ⊢
      split at h
      · rename_i hbare
        obtain ⟨rfl, rfl⟩ := hbare
        cases h
        have hword : ∀ v : UInt64, UInt64.ofNat (Bytes.toNatLE (Bytes.ofNatLE 8 v.toNat)) = v :=
          fun v => by rw [Bytes.toNatLE_ofNatLE v.toNat_lt, UInt64.ofNat_toNat]
        rw [if_pos (by simp), List.take_left' (Bytes.length_ofNatLE 8 _),
          List.drop_left' (Bytes.length_ofNatLE 8 _), hword, hword]
      · cases h

/-- A document store with no files. -/
def sampleDocStorage : DocStorage := { manifest := none, files := ∅ }

/-- The insert of document `n`, numbered `n`. -/
def sampleInsert (n : UInt64) : LogRecord Unit := { seq := n, entry := .Upsert n "" () [] }

theorem eq_pair_of_fst {α β : Type} {p : α × β} {a : α} (h : p.1 = a) : p = (a, p.2) := by
  rw [← h]

/-- The calls of the sample run: two puts, the first one truncated away. -/
def sampleWalLabels : List (WalCall Unit × WalReturn Unit) :=
  [(.append_put "" () [] none, .put 1 1), (.append_put "" () [] none, .put 2 2),
    (.truncate_retaining_after 1, .truncated)]

/-- The log of an index that has no file yet. -/
def sampleFreshLog : DocumentLog Unit :=
  (((new "engine.wal" none sampleDocStorage).advance_seq_past 0).read_all sampleWalCodec).2

/-- The file. -/
def sampleWrapFile : Bytes :=
  wal_header ++ match sampleWalCodec.record_frame (sampleInsert MAX_SEQ) with
    | .ok frame => frame
    | .error _ => []

end Laurus
