import Laurus.Store.Helpers.Log
import Laurus.Store.Model.LogSync

/-!
# Helpers: what a sync covers of the log

`Counts` says of a log which records its sync covers and which its handle
counts; each operation of the log has one lemma, which says what it makes of
these.
-/

namespace Laurus

variable {Document : Type} {codec : WalCodec Document}

namespace WalCodec

/-! ## Parts of a file -/

theorem records_of_prefix {bytes bytes' : Bytes} (hbegins : bytes <+: bytes')
    (hformat : detect_existing_format bytes = detect_existing_format bytes') :
    codec.records_of bytes <+: codec.records_of bytes' := by
  obtain ⟨t, rfl⟩ := hbegins
  obtain ⟨frames, rest, hbytes, -, hframes, -⟩ := codec.records_of_frames bytes
  have hheader := header_len_le bytes
  set format := detect_existing_format bytes with hdetect
  grind [scan_file_eq, records_of, Framing.scan_longest]

theorem take_v4 {bytes : Bytes} (h : detect_existing_format bytes = .V4) (n : ℕ) :
    (n ≤ 4 ∧ bytes.take n = DocumentLog.wal_header.take n) ∨
      (WAL_HEADER_LEN ≤ n ∧ detect_existing_format (bytes.take n) = .V4) := by
  have hfive : WAL_HEADER_LEN = 5 := rfl
  rcases Nat.lt_or_ge n WAL_HEADER_LEN with hshort | hlong
  · refine Or.inl ⟨by omega, ?_⟩
    rw [← header_of_v4 h, List.take_take, Nat.min_eq_left (by omega)]
  grind [detect_take, List.take_of_length_le]

theorem records_of_short (codec : WalCodec Document) {bytes : Bytes} {n : ℕ} (hn : n ≤ 4)
    (h : bytes = DocumentLog.wal_header.take n) (m : ℕ) :
    detect_existing_format (bytes.take m) = .Legacy ∧ codec.records_of (bytes.take m) = [] := by
  rw [h, List.take_take]
  exact codec.records_of_short_header ((Nat.min_le_right m n).trans hn)

theorem records_of_take_mono {bytes : Bytes} (h : detect_existing_format bytes = .V4) {m n : ℕ}
    (hmn : m ≤ n) : codec.records_of (bytes.take m) <+: codec.records_of (bytes.take n) := by
  rcases take_v4 h m with ⟨hshort, hm⟩ | ⟨hlong, hm⟩
  · have hnone := (codec.records_of_short hshort hm m).2
    grind
  · rcases take_v4 h n with ⟨hshort, -⟩ | ⟨-, hn⟩
    · have hfive : WAL_HEADER_LEN = 5 := rfl
      omega
    · exact records_of_prefix (List.take_prefix_take_left hmn) (hm.trans hn.symm)

theorem valid_len_take {bytes : Bytes} {n : ℕ} (h : detect_existing_format bytes = .V4)
    (hn : detect_existing_format (bytes.take n) = .V4)
    (hall : codec.records_of (bytes.take n) = codec.records_of bytes) :
    codec.valid_len (bytes.take n) = codec.valid_len bytes := by
  obtain ⟨frames, rest, hbytes, hlen, hframes, -⟩ := codec.records_of_frames bytes
  obtain ⟨frames', rest', hbytes', hlen', hframes', -⟩ := codec.records_of_frames (bytes.take n)
  rw [h] at hbytes hlen hframes
  rw [hn] at hbytes' hlen' hframes'
  have hfive : WalFormat.V4.header_len = WAL_HEADER_LEN := rfl
  rw [hfive, header_of_v4 h] at hbytes
  rw [hfive, header_of_v4 hn] at hbytes'
  rw [hall] at hframes'
  have hjoin : frames' ++ (rest' ++ bytes.drop n) = frames ++ rest := by
    have hwhole := List.take_append_drop n bytes
    grind
  rw [hlen, hlen', hframes'.eq_of_append hframes hjoin]

end WalCodec

namespace SyncedLog

/-! ## Synced and unsynced records -/

/-- The records of the file's part that a sync covers. -/
def synced_records (codec : WalCodec Document) (s : SyncedLog Document) :
    List (LogRecord Document) :=
  codec.records_of (s.log.contents.take s.synced)

/-- The records after them. -/
def unsynced (codec : WalCodec Document) (s : SyncedLog Document) : List (LogRecord Document) :=
  (codec.records_of s.log.contents).drop (s.synced_records codec).length

/-- What the frames of these take. -/
def unsynced_bytes (codec : WalCodec Document) (s : SyncedLog Document) : ℕ :=
  ((s.unsynced codec).filterMap fun record =>
    (codec.record_frame record).toOption).flatten.length

/-- The counts of a handle are of the records `pending`, whose frames are
`frames`. -/
structure Pending (codec : WalCodec Document) (state : WalWriterState)
    (pending : List (LogRecord Document)) (frames : List Bytes) : Prop where
  each : List.Forall₂ (fun record frame => codec.record_frame record = .ok frame) pending frames
  records : state.unsynced_records = pending.length % 2 ^ 64
  bytes : state.unsynced_bytes = min frames.flatten.length (2 ^ 64 - 1)
  dirty : state.dirty = true ↔ pending ≠ []

/-- **What is known of a log**: its file holds `base`, which is synced, then
`pending`, which the open handle counts, and in a torn file `extra`, which
no append acknowledged. -/
structure Counts (codec : WalCodec Document) (s : SyncedLog Document)
    (base pending extra : List (LogRecord Document)) : Prop where
  holds : DocumentLog.Holds codec s.log (base ++ pending ++ extra)
  synced_le : s.synced ≤ s.log.contents.length
  synced : s.synced_records codec = base
  /-- What may not be whole is of version 4, or a part of a header. -/
  shape : detect_existing_format s.log.contents = .V4 ∨ s.synced = s.log.contents.length ∨
    ∃ k ≤ 4, s.log.contents = DocumentLog.wal_header.take k
  extra : s.log.torn = false → extra = []
  counts : s.log.wal_writer = true → ∃ frames, Pending codec s.state pending frames
  named : s.log.wal_writer = true → s.wal_name_synced = true
  closed : s.log.wal_writer = false → pending = []

variable {s s' : SyncedLog Document} {base pending extra : List (LogRecord Document)}
variable {state : WalWriterState} {frames : List Bytes} {record : LogRecord Document}

theorem Counts.unsynced_eq (h : Counts codec s base pending extra) :
    s.unsynced codec = pending ++ extra := by
  rw [unsynced, h.synced, h.holds.held, List.append_assoc, List.drop_left]

theorem Pending.nil (codec : WalCodec Document) : Pending codec .new [] [] where
  each := List.Forall₂.nil
  records := rfl
  bytes := rfl
  dirty := by simp [WalWriterState.new]

/-- One more record is counted. -/
theorem Pending.push (h : Pending codec state pending frames) {frame : Bytes}
    (hframe : codec.record_frame record = .ok frame) :
    Pending codec
      { dirty := true
        unsynced_records := (state.unsynced_records + 1) % 2 ^ 64
        unsynced_bytes := min (state.unsynced_bytes + frame.length) (2 ^ 64 - 1) }
      (pending ++ [record]) (frames ++ [frame]) where
  each := List.rel_append h.each (List.Forall₂.cons hframe List.Forall₂.nil)
  records := by
    dsimp only
    rw [h.records, List.length_append, List.length_singleton]
    omega
  bytes := by
    dsimp only
    rw [h.bytes, List.flatten_append, List.length_append, List.flatten_singleton]
    omega
  dirty := by simp

theorem Pending.length_le (hcodec : codec.Lawful) (h : Pending codec state pending frames) :
    pending.length ≤ frames.flatten.length := by
  have hframes := h.each
  clear h
  induction hframes with
  | nil => exact Nat.le_refl _
  | cons hframe _ ih =>
      have hpos := (WalCodec.isFrame_record_frame hcodec hframe).pos
      grind

/-- **Counts below both thresholds are what they count**: no record is
missed where they wrap around. -/
theorem Pending.below (hcodec : codec.Lawful) (h : Pending codec state pending frames)
    {max_records max_bytes : UInt64} (hrecords : state.unsynced_records < max max_records.toNat 1)
    (hbytes : state.unsynced_bytes < max max_bytes.toNat 1) :
    pending.length < max 1 max_records.toNat ∧ frames.flatten.length < max 1 max_bytes.toNat := by
  have hlen := h.length_le hcodec
  have hmax := max_bytes.toNat_lt
  rw [h.bytes] at hbytes
  rw [h.records] at hrecords
  -- the bytes did not saturate, so the records did not wrap around
  omega

theorem Pending.size (h : Pending codec state pending frames) :
    (pending.filterMap fun record => (codec.record_frame record).toOption) = frames := by
  have hframes := h.each
  clear h
  induction hframes with
  | nil => rfl
  | cons hframe _ ih =>
      have hone : (codec.record_frame _).toOption = some _ := congrArg Except.toOption hframe
      rw [List.filterMap_cons, hone, ih]

/-! ## Parts of the file -/

/-- **What is left of a file**, whatever part past the last sync is: all
that is synced, and nothing the file did not hold. -/
theorem Counts.part (h : Counts codec s base pending extra) {n : ℕ} (hn : s.synced ≤ n) :
    base <+: codec.records_of (s.log.contents.take n) ∧
      codec.records_of (s.log.contents.take n) <+: base ++ pending ++ extra ∧
      ∀ version, detect_existing_format (s.log.contents.take n) ≠ .Unknown version := by
  rw [← h.holds.held]
  rcases h.shape with hv4 | hall | ⟨k, hk, hshort⟩
  · refine ⟨?_, ?_, fun version => ?_⟩
    · rw [← h.synced]
      exact WalCodec.records_of_take_mono hv4 hn
    · have hmono := @WalCodec.records_of_take_mono _ codec _ hv4 n _
        (Nat.le_max_left n s.log.contents.length)
      rwa [List.take_of_length_le (Nat.le_max_right n _)] at hmono
    · rcases WalCodec.take_v4 hv4 n with ⟨hle, htake⟩ | ⟨-, htake⟩
      · have hlegacy := (codec.records_of_short_header hle).1
        rw [htake, hlegacy]
        simp
      · rw [htake]
        simp
  · have hwhole : s.log.contents.take n = s.log.contents :=
      List.take_of_length_le (hall ▸ hn)
    rw [hwhole, ← h.synced, synced_records, hall, List.take_length]
    exact ⟨List.prefix_rfl, List.prefix_rfl, h.holds.known⟩
  · have hnone := fun m => (codec.records_of_short hk hshort m).2
    have hnil := hnone s.log.contents.length
    rw [List.take_length] at hnil
    rw [hnone, hnil, ← h.synced, synced_records, hnone]
    rw [(codec.records_of_short hk hshort n).1]
    simp

theorem contents_drop_writer (s : SyncedLog Document) (n : ℕ) :
    (s.drop_writer n).log.contents = s.log.contents.take (max s.synced n) := by
  show (s.log.wal_file.map _).getD [] = (s.log.wal_file.getD []).take _
  rcases s.log.wal_file with _ | bytes
  · exact List.take_nil.symm
  · rfl

/-! ## Operations -/

/-- What an operation that writes no record leaves. -/
structure Reached (codec : WalCodec Document) (s s' : SyncedLog Document)
    (base pending extra : List (LogRecord Document)) : Prop where
  counts : Counts codec s' base pending extra
  sync_policy : s'.sync_policy = s.sync_policy
  depth : s'.sync_deferral_depth = s.sync_deferral_depth
  torn : s'.log.torn = s.log.torn

theorem Reached.refl (h : Counts codec s base pending extra) :
    Reached codec s s base pending extra := ⟨h, rfl, rfl, rfl⟩

theorem counts_closed_v4 (hholds : DocumentLog.Holds codec s.log base)
    (hclosed : s.log.wal_writer = false) (hsynced : s.synced = s.log.contents.length) :
    Counts codec s base [] [] where
  holds := by simpa using hholds
  synced_le := hsynced.le
  synced := by rw [synced_records, hsynced, List.take_length, hholds.held]
  shape := Or.inr (Or.inl hsynced)
  extra _ := rfl
  counts hopen := by simp [hclosed] at hopen
  named hopen := by simp [hclosed] at hopen
  closed _ := rfl

theorem Counts.of_closed (h : Counts codec s base pending extra)
    (hclosed : s.log.wal_writer = false) (hsame : DocumentLog.SameFile s.log s'.log) (hsynced : s'.synced = s.synced) :
    Counts codec s' base pending extra where
  holds := h.holds.of_same hsame
  synced_le := by rw [hsynced, hsame.contents]; exact h.synced_le
  synced := by
    rw [synced_records, hsynced, hsame.contents]
    exact h.synced
  shape := by rw [hsynced, hsame.contents]; exact h.shape
  extra htorn := h.extra (hsame.torn ▸ htorn)
  counts hopen := by simp [hsame.wal_writer, hclosed] at hopen
  named hopen := by simp [hsame.wal_writer, hclosed] at hopen
  closed _ := h.closed hclosed

/-- **What `rewrite_wal` does**: nothing, but for the flag, or the file is
the new one, and is synced. -/
theorem rewrite_wal_cases (hcodec : codec.Lawful) (s : SyncedLog Document)
    (records : List (LogRecord Document)) (fault : Option RewriteFault) :
    (∃ e b, s.rewrite_wal codec records fault = (.error e, { s with wal_name_synced := b })) ∨
    ∃ result file b, s.rewrite_wal codec records fault =
        (result, { s with
          log := { s.log with wal_file := some file }
          wal_name_synced := b
          synced := file.length }) ∧
      DocumentLog.Holds codec { s.log with wal_file := some file } records ∧
      detect_existing_format file = .V4 := by
  unfold rewrite_wal
  rcases DocumentLog.rewrite_wal_cases hcodec s.log records with
    ⟨e, heq⟩ | ⟨file, heq, hholds, hv4⟩
  · rw [heq]
    left
    rcases fault with _ | _ | _ | _
    · exact ⟨e, s.wal_name_synced, rfl⟩
    · exact ⟨_, s.wal_name_synced, rfl⟩
    · exact ⟨e, s.wal_name_synced, rfl⟩
    simp
  · rw [heq]
    rcases fault with _ | _ | _ | _
    · exact Or.inr ⟨.ok (), file, true, rfl, hholds, hv4⟩
    · exact Or.inl ⟨_, s.wal_name_synced, rfl⟩
    · exact Or.inl ⟨_, false, rfl⟩
    · exact Or.inr ⟨.error _, file, false, rfl, hholds, hv4⟩

theorem rewrite_wal_reached (hcodec : codec.Lawful) (h : Counts codec s base [] extra)
    (hclosed : s.log.wal_writer = false) (records : List (LogRecord Document))
    (fault : Option RewriteFault) :
    ((∃ e, (s.rewrite_wal codec records fault).1 = .error e) ∧
      Reached codec s (s.rewrite_wal codec records fault).2 base [] extra) ∨
    Reached codec s (s.rewrite_wal codec records fault).2 records [] [] ∧
      (s.rewrite_wal codec records fault).2.log.wal_writer = false := by
  rcases rewrite_wal_cases hcodec s records fault with ⟨e, b, heq⟩ |
    ⟨result, file, b, heq, hholds, -⟩
  · rw [heq]
    exact Or.inl ⟨⟨e, rfl⟩, h.of_closed hclosed (.refl s.log) rfl, rfl, rfl, rfl⟩
  · rw [heq]
    exact Or.inr ⟨⟨counts_closed_v4 hholds hclosed rfl, rfl, rfl, rfl⟩, hclosed⟩

theorem open_writer_cases (s : SyncedLog Document) (io : AppendIo) :
    (∃ e b, s.open_writer io = (.error e, { s with wal_name_synced := b })) ∨
    s.open_writer io = { s with wal_name_synced := true }.start_writer io := by
  rw [open_writer]
  rcases io.append with _ | e
  · dsimp only
    split
    · rename_i hnamed
      have hsame : s = { s with wal_name_synced := true } := by rw [← hnamed]
      grind
    · rcases io.name with _ | e
      · exact Or.inr rfl
      · exact Or.inl ⟨e, false, rfl⟩
  grind

/-- What opening a handle leaves. -/
structure Ready (codec : WalCodec Document) (s s' : SyncedLog Document)
    (base pending extra : List (LogRecord Document)) (result : Except LaurusError Unit) : Prop
    extends Reached codec s s' base pending extra where
  /-- An open handle is on a file that is not torn. -/
  ready : result = .ok () → s'.log.torn = false ∧ s'.log.wal_writer = true

theorem start_writer_ready (h : Counts codec s base [] extra) (htorn : s.log.torn = false)
    (hclosed : s.log.wal_writer = false) (hnamed : s.wal_name_synced = true)
    (hv4 : s.log.contents = [] ∨ detect_existing_format s.log.contents = .V4) (io : AppendIo) :
    Ready codec s (s.start_writer io).2 base [] extra (s.start_writer io).1 := by
  have hextra := h.extra htorn
  have hheld := h.holds.held
  by_cases hnil : s.log.contents = []
  · have hbase : base = [] := by
      rw [hnil, codec.records_of_nil.1] at hheld
      grind
    have hsynced : s.synced = 0 := by
      have hle := h.synced_le
      grind
    rw [start_writer, if_pos (show s.log.wal_file.getD [] = [] from hnil)]
    subst hbase hextra
    have hnothing : ∀ bytes : Bytes, codec.records_of (bytes.take s.synced) = [] := fun bytes => by
      grind
    rcases io.header with _ | ⟨e, len⟩
    · -- the header is buffered, and no sync covers it
      have hholds : DocumentLog.Holds codec
          { s.log with wal_file := some DocumentLog.wal_header, wal_writer := true } [] :=
        DocumentLog.holds_v4 (by rw [List.append_nil]) Framing.Frames.nil
      exact ⟨⟨⟨hholds, by rw [hsynced]; exact Nat.zero_le _, hnothing _, Or.inl rfl, fun _ => rfl,
        fun _ => ⟨[], Pending.nil codec⟩, fun _ => hnamed, fun hopen => by cases hopen⟩,
        rfl, rfl, rfl⟩, fun _ => ⟨htorn, rfl⟩⟩
    · refine ⟨⟨⟨?_, by rw [hsynced]; exact Nat.zero_le _, hnothing _, ?_, fun _ => rfl,
        fun hopen => by simp [hclosed] at hopen, fun hopen => by simp [hclosed] at hopen,
        fun _ => rfl⟩, rfl, rfl, rfl⟩, fun hok => by cases hok⟩
      · rcases Nat.lt_or_ge 4 len with hlong | hshort
        · have hwhole : DocumentLog.wal_header.take len = DocumentLog.wal_header ++ [] := by
            exact List.take_of_length_le hlong
          exact DocumentLog.holds_v4 (congrArg some hwhole) Framing.Frames.nil
        · obtain ⟨hlegacy, hnone⟩ := codec.records_of_short_header hshort
          have hlegacy' : ∀ format, format ≠ WalFormat.Legacy →
              detect_existing_format (DocumentLog.wal_header.take len) ≠ format :=
            fun format hne heq => hne (heq.symm.trans hlegacy)
          refine ⟨hnone, fun version => hlegacy' _ (by simp), fun _ hf => ?_, fun hopen => ?_⟩
          · exact absurd hf (hlegacy' _ (by simp))
          grind
      · rcases Nat.lt_or_ge 4 len with hlong | hshort
        · refine Or.inl ?_
          have hwhole : DocumentLog.wal_header.take len = DocumentLog.wal_header :=
            List.take_of_length_le hlong
          show detect_existing_format (DocumentLog.wal_header.take len) = .V4
          rw [hwhole]
          rfl
        · exact Or.inr (Or.inr ⟨len, hshort, rfl⟩)
  · rw [start_writer, if_neg (show ¬ s.log.wal_file.getD [] = [] from hnil)]
    have hv4' := hv4.resolve_left hnil
    exact ⟨⟨⟨⟨hheld, h.holds.known, h.holds.whole, fun _ => hv4'⟩, h.synced_le, h.synced,
      Or.inl hv4', h.extra, fun _ => ⟨[], Pending.nil codec⟩, fun _ => hnamed,
      fun hopen => by cases hopen⟩, rfl, rfl, rfl⟩, fun _ => ⟨htorn, rfl⟩⟩

theorem open_writer_ready (h : Counts codec s base [] extra) (htorn : s.log.torn = false)
    (hclosed : s.log.wal_writer = false)
    (hv4 : s.log.contents = [] ∨ detect_existing_format s.log.contents = .V4) (io : AppendIo) :
    Ready codec s (s.open_writer io).2 base [] extra (s.open_writer io).1 := by
  rcases s.open_writer_cases io with ⟨e, b, heq⟩ | heq
  · rw [heq]
    exact ⟨⟨h.of_closed hclosed (.refl s.log) rfl, rfl, rfl, rfl⟩, fun hok => by cases hok⟩
  · rw [heq]
    have hnamed : Counts codec { s with wal_name_synced := true } base [] extra :=
      h.of_closed hclosed (.refl s.log) rfl
    have hready := start_writer_ready hnamed htorn hclosed rfl hv4 io
    exact ⟨⟨hready.counts, hready.sync_policy, hready.depth, hready.torn⟩, hready.ready⟩

/-- An older file is rewritten before it is appended to. -/
theorem upgrade_ready (hcodec : codec.Lawful) (h : Counts codec s base [] [])
    (htorn : s.log.torn = false) (hclosed : s.log.wal_writer = false) (io : AppendIo) :
    Ready codec s (s.upgrade_writer codec io).2 base [] [] (s.upgrade_writer codec io).1 := by
  obtain ⟨cut_at, hread⟩ := h.holds.read_wal
  rw [List.append_nil, List.append_nil] at hread
  have hsame := s.log.recount_same codec
  have hcounts : Counts codec { s with log := s.log.recount codec } base [] [] :=
    h.of_closed hclosed hsame rfl
  have hclosed' : (s.log.recount codec).wal_writer = false := hsame.wal_writer.trans hclosed
  have hupgrade : s.upgrade codec io =
      { s with log := s.log.recount codec }.rewrite_wal codec base io.rewrite := by
    rw [upgrade, hread]
  rw [upgrade_writer, hupgrade]
  rcases rewrite_wal_cases hcodec { s with log := s.log.recount codec } base io.rewrite with
    ⟨e, b, heq⟩ | ⟨result, file, b, heq, hholds, hv4⟩
  · rw [heq]
    exact ⟨⟨hcounts.of_closed hclosed' (.refl _) rfl, rfl, rfl, hsame.torn⟩,
      fun hok => by cases hok⟩
  · rw [heq]
    have hnew : Counts codec { s with
        log := { s.log.recount codec with wal_file := some file }
        wal_name_synced := b
        synced := file.length } base [] [] := counts_closed_v4 hholds hclosed' rfl
    rcases result with e | _
    · exact ⟨⟨hnew, rfl, rfl, hsame.torn⟩, fun hok => by cases hok⟩
    · have hready := open_writer_ready hnew (hsame.torn.trans htorn) hclosed' (Or.inr hv4) io
      exact ⟨⟨hready.counts, hready.sync_policy, hready.depth, hready.torn.trans hsame.torn⟩,
        hready.ready⟩

/-- **What `ensure_writer` leaves**: the records as they were, and an open
handle where it returns so. -/
theorem ensure_writer_ready (hcodec : codec.Lawful) (h : Counts codec s base pending extra)
    (io : AppendIo) :
    Ready codec s (s.ensure_writer codec io).2 base pending extra
      (s.ensure_writer codec io).1 := by
  have hstay : ∀ e, Ready codec s s base pending extra (.error e) := fun e =>
    ⟨.refl h, fun hok => by cases hok⟩
  rcases htorn : s.log.torn with _ | _
  · rcases hwriter : s.log.wal_writer with _ | _
    · obtain rfl := h.closed hwriter
      obtain rfl := h.extra htorn
      rw [ensure_writer, htorn, hwriter, if_neg Bool.false_ne_true, if_neg Bool.false_ne_true]
      rcases io.read with _ | e
      · dsimp only
        split
        · rename_i hnil
          exact open_writer_ready h htorn hwriter (Or.inl hnil) io
        · split
          · rename_i hv4
            exact open_writer_ready h htorn hwriter (Or.inr hv4) io
          · exact hstay _
          · exact upgrade_ready hcodec h htorn hwriter io
          · exact upgrade_ready hcodec h htorn hwriter io
          · exact upgrade_ready hcodec h htorn hwriter io
      · exact hstay e
    · rw [ensure_writer, htorn, hwriter, if_neg Bool.false_ne_true, if_pos rfl]
      exact ⟨.refl h, fun _ => ⟨htorn, hwriter⟩⟩
  · rw [ensure_writer, htorn, if_pos rfl]
    exact hstay _

theorem append_record_bytes_cases (hcodec : codec.Lawful) (h : Counts codec s base pending [])
    (htorn : s.log.torn = false) (hopen : s.log.wal_writer = true)
    (record : LogRecord Document) (io : AppendIo) :
    (∃ e extra s', s.append_record_bytes codec record io = (.error e, s') ∧
      Counts codec s' base pending extra ∧ s'.sync_policy = s.sync_policy ∧
      s'.sync_deferral_depth = s.sync_deferral_depth) ∨
    ∃ s', s.append_record_bytes codec record io = (.ok (), s') ∧
      Counts codec s' base (pending ++ [record]) [] ∧ s'.log.wal_writer = true ∧
      s'.log.torn = false ∧ s'.sync_policy = s.sync_policy ∧
      s'.sync_deferral_depth = s.sync_deferral_depth := by
  rw [append_record_bytes, if_pos hopen]
  rcases hframe : codec.record_frame record with e | frame
  · grind
  have hv4 := h.holds.writer hopen
  obtain ⟨frames, hcontents, hframes⟩ := h.holds.v4_frames htorn hv4
  have hisframe := WalCodec.isFrame_record_frame hcodec hframe
  have hv4' : ∀ bytes, detect_existing_format (s.log.contents ++ bytes) = .V4 := fun bytes => by
    rw [WalCodec.detect_append (WalCodec.length_of_v4 hv4), hv4]
  -- what is appended is past the part that is synced
  have hbase : ∀ bytes, codec.records_of ((s.log.contents ++ bytes).take s.synced) = base :=
    fun bytes => by
      rw [List.take_append_of_le_length h.synced_le]
      exact h.synced
  have hlen : ∀ bytes, s.synced ≤ (s.log.contents ++ bytes).length := fun bytes => by
    have := h.synced_le
    rw [List.length_append]
    omega
  have hfull : DocumentLog.Holds codec
      { s.log with wal_file := some (s.log.contents ++ frame) }
      (base ++ pending ++ [] ++ [record]) :=
    DocumentLog.holds_v4 (by rw [hcontents, List.append_assoc]) (hframes.append hisframe.frames)
  rw [List.append_nil] at hfull
  dsimp only
  rcases io.frame with _ | ⟨e, len⟩
  · refine Or.inr ⟨_, rfl, ⟨?_, hlen _, hbase _, Or.inl (hv4' _), fun _ => rfl, fun _ => ?_,
      h.named, fun hclosed => ?_⟩, hopen, htorn, rfl, rfl⟩
    · rw [List.append_nil, ← List.append_assoc]
      exact hfull
    · obtain ⟨counted, hcounts⟩ := h.counts hopen
      exact ⟨_, hcounts.push hframe⟩
    grind
  · -- a torn frame is none, or an unacknowledged one at the file's end
    have hrest : ∃ extra, codec.records_of (s.log.contents ++ frame.take len) =
        base ++ pending ++ extra := by
      rcases Nat.lt_or_ge len frame.length with hpart | hwhole
      · refine ⟨[], ?_⟩
        rw [hcontents]
        exact (codec.records_of_v4 hframes (hisframe.read_take hpart)).1
      · refine ⟨[record], ?_⟩
        rw [List.take_of_length_le hwhole]
        exact hfull.held
    obtain ⟨extra, hextra⟩ := hrest
    refine Or.inl ⟨e, extra, _, rfl, ⟨⟨hextra, fun version hversion => ?_, fun hf => ?_,
      fun _ => hv4' _⟩, hlen _, hbase _, Or.inl (hv4' _), fun hf => ?_, h.counts, h.named,
      h.closed⟩, rfl, rfl⟩
    · have := (hv4' (frame.take len)).symm.trans hversion
      cases this
    · cases hf
    · cases hf

theorem Counts.sync (h : Counts codec s base pending extra) :
    Counts codec { s with state := .new, synced := s.log.contents.length }
      (base ++ pending ++ extra) [] [] where
  holds := by
    rw [List.append_nil, List.append_nil]
    exact h.holds
  synced_le := Nat.le_refl _
  synced := by
    show codec.records_of (s.log.contents.take s.log.contents.length) = _
    rw [List.take_length, h.holds.held]
  shape := Or.inr (Or.inl rfl)
  extra _ := rfl
  counts _ := ⟨[], Pending.nil codec⟩
  named := h.named
  closed _ := rfl

theorem Counts.clean (h : Counts codec s base pending extra)
    (hclean : ¬ (s.log.wal_writer = true ∧ s.state.dirty = true)) : pending = [] := by
  rcases hopen : s.log.wal_writer with _ | _
  · exact h.closed hopen
  · obtain ⟨frames, hcounts⟩ := h.counts hopen
    grind [Pending.dirty]

/-- **What a flush leaves**: nothing that is counted, or all as it was. -/
theorem flush_writer_cases (h : Counts codec s base pending extra) (fault : Option LaurusError) :
    (∃ e, s.flush_writer fault = (.error e, s)) ∨
    ∃ s' base' extra', s.flush_writer fault = (.ok (), s') ∧ Counts codec s' base' [] extra' ∧
      base ++ pending <+: base' ∧ (extra = [] → base' = base ++ pending ∧ extra' = []) ∧
      s'.log = s.log ∧ s'.sync_policy = s.sync_policy ∧
      s'.sync_deferral_depth = s.sync_deferral_depth ∧ s'.wal_name_synced = s.wal_name_synced := by
  unfold flush_writer
  by_cases hdirty : s.log.wal_writer = true ∧ s.state.dirty = true
  · rw [if_pos hdirty]
    rcases fault with _ | e
    · refine Or.inr ⟨_, base ++ pending ++ extra, [], rfl, h.sync, List.prefix_append _ _, ?_, rfl,
        rfl, rfl, rfl⟩
      simp
    · exact Or.inl ⟨e, rfl⟩
  · rw [if_neg hdirty]
    obtain rfl := h.clean hdirty
    grind

/-- **A handle that counts nothing is dropped**: what a sync covers stays. -/
theorem Counts.drop (h : Counts codec s base [] extra) (n : ℕ) :
    ∃ extra', Counts codec (s.drop_writer n) base [] extra' := by
  have hcontents := s.contents_drop_writer n
  obtain ⟨hbase, hle, hknown⟩ := h.part (Nat.le_max_left s.synced n)
  set m := max s.synced n with hm
  obtain ⟨extra', hextra'⟩ := hbase
  have hnone : s.log.torn = false → extra' = [] := by
    grind [extra, List.length_append, List.length_eq_zero_iff]
  refine ⟨extra', ⟨?_, fun version => ?_, fun htorn hv4 => ?_, fun hopen => ?_⟩, ?_, ?_, ?_,
    hnone, fun hopen => ?_, fun hopen => ?_, fun _ => rfl⟩
  · grind
  · rw [hcontents]
    exact hknown version
  · -- all the records are there, so all of the file is
    rw [hcontents] at hv4 ⊢
    have hlong := WalCodec.length_of_v4 hv4
    have hpart := List.length_take (i := m) (l := s.log.contents)
    have hcontents_v4 : detect_existing_format s.log.contents = .V4 := by
      grind [WalCodec.detect_take, List.take_of_length_le]
    have hall : codec.records_of (s.log.contents.take m) = codec.records_of s.log.contents := by
      rw [← hextra', hnone htorn, h.holds.held, h.extra htorn, List.append_nil, List.append_nil]
    have hsame := WalCodec.valid_len_take hcontents_v4 hv4 hall
    have hwhole := h.holds.whole htorn hcontents_v4
    have hvalid := codec.valid_len_le (s.log.contents.take m)
    omega
  · cases hopen
  · rw [hcontents, List.length_take]
    have := h.synced_le
    show s.synced ≤ _
    omega
  · show codec.records_of ((s.drop_writer n).log.contents.take s.synced) = base
    rw [hcontents, List.take_take, Nat.min_eq_left (Nat.le_max_left _ _)]
    exact h.synced
  · rw [hcontents]
    rcases h.shape with hv4 | hall | ⟨k, hk, hshort⟩
    · rcases WalCodec.take_v4 hv4 m with ⟨hm4, htake⟩ | ⟨-, htake⟩
      · exact Or.inr (Or.inr ⟨m, hm4, htake⟩)
      · exact Or.inl htake
    · refine Or.inr (Or.inl ?_)
      show s.synced = _
      rw [List.length_take]
      omega
    grind
  · cases hopen
  · cases hopen

end SyncedLog

end Laurus
