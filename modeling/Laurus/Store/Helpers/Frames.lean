import Laurus.Common.FrameScan
import Laurus.Store.Model.Log

/-!
# The log file as frames

One turn of `read_wal`'s loop is a framing (`WalCodec.framing`), the loop
its scan (`scan_file_eq`), and a frame that `record_frame` makes is one of
version 4 (`isFrame_record_frame`). What a file holds is then the records
of its longest beginning of whole frames.
-/

namespace Laurus

open Laurus.Framing

variable {Document : Type} {codec : WalCodec Document} {format : WalFormat}

namespace WalCodec

/-! ## One frame -/

variable {n k : ℕ} {bytes : Bytes} {record : LogRecord Document} {frame : Bytes}

theorem take_append_local {β : Type} {s t : List β} (hk : k ≤ n) (hn : n ≤ s.length) :
    (s.take n ++ t).take k = s.take k := by grind

theorem take_drop_append_local {β : Type} {s t : List β} {i : ℕ} (hk : i + k ≤ n)
    (hn : n ≤ s.length) : ((s.take n ++ t).drop i).take k = (s.drop i).take k := by
  rw [List.take_drop, List.take_drop, take_append_local hk hn]

theorem read_frame_eq_some :
    codec.read_frame format bytes = some (record, n) ↔
      ∃ head, (head = if format.has_crc then 8 else 4) ∧
        n = head + Bytes.toNatLE (bytes.take 4) ∧ n ≤ bytes.length ∧
        (format.has_crc = true →
          codec.crc32 (bytes.take 4 ++ (bytes.drop head).take (Bytes.toNatLE (bytes.take 4))) =
            UInt32.ofNat (Bytes.toNatLE ((bytes.drop 4).take 4))) ∧
        codec.decode_payload ((bytes.drop head).take (Bytes.toNatLE (bytes.take 4))) format =
          .ok record := by
  unfold read_frame
  by_cases hfour : bytes.length < 4
  · grind
  cases hcrc : format.has_crc with
  | false =>
      grind
  | true =>
      simp only [if_true, List.length_drop, List.drop_drop]
      grind

/-- `read_wal`'s turns as a framing. -/
def framing (codec : WalCodec Document) (format : WalFormat) :
    Framing UInt8 (LogRecord Document) where
  read := codec.read_frame format
  bounds := by
    grind [read_frame_eq_some]
  local_read := by
    intro bytes record n t h
    obtain ⟨head, hhead, hn, hle, hsum, hdecode⟩ := read_frame_eq_some.1 h
    have hfour : 4 ≤ head := by
      rw [hhead]
      split <;> omega
    have hlen : (bytes.take n ++ t).take 4 = bytes.take 4 :=
      take_append_local (by omega) hle
    have hbody := take_drop_append_local (t := t) (i := head)
      (k := Bytes.toNatLE (bytes.take 4)) (n := n) (s := bytes) (by omega) hle
    refine read_frame_eq_some.2 ⟨head, hhead, by rw [hlen]; exact hn, ?_, fun hcrc => ?_, ?_⟩
    · grind
    · have height : head = 8 := by rw [hhead, if_pos hcrc]
      have hexpected := take_drop_append_local (t := t) (i := 4) (k := 4) (n := n) (s := bytes)
        (by omega) hle
      grind
    · rw [hlen, hbody]
      exact hdecode

/-- One complete record of a file: the length, the checksum where the framing
has one, and a payload that decodes. -/
def RecordFrame (codec : WalCodec Document) (format : WalFormat) (frame : Bytes)
    (record : LogRecord Document) : Prop :=
  ∃ payload : Bytes, payload.length < 2 ^ 32 ∧ codec.decode_payload payload format = .ok record ∧
    let len_bytes := Bytes.ofNatLE 4 payload.length
    frame = len_bytes ++ (if format.has_crc then
      Bytes.ofNatLE 4 (codec.crc32 (len_bytes ++ payload)).toNat else []) ++ payload

theorem RecordFrame.isFrame
    (h : RecordFrame codec format frame record) : (codec.framing format).IsFrame frame record := by
  obtain ⟨payload, hlt, hdecode, hframe⟩ := h
  set len_bytes := Bytes.ofNatLE 4 payload.length with hlen_bytes
  set crc := (if format.has_crc then
    Bytes.ofNatLE 4 (codec.crc32 (len_bytes ++ payload)).toNat else []) with hcrc
  have hlen4 : len_bytes.length = 4 := Bytes.length_ofNatLE 4 _
  have hlen : Bytes.toNatLE len_bytes = payload.length := Bytes.toNatLE_ofNatLE hlt
  have hhead : (len_bytes ++ crc).length = if format.has_crc then 8 else 4 := by
    rw [List.length_append, hlen4, hcrc]
    split <;> simp
  have htake : frame.take 4 = len_bytes := by grind
  have hbody : (frame.drop (if format.has_crc then 8 else 4)).take payload.length = payload := by
    grind
  refine read_frame_eq_some.2 ⟨_, rfl, ?_, Nat.le_refl _, fun hsum => ?_, ?_⟩
  · grind
  · rw [if_pos hsum] at hcrc
    grind [Bytes.toNatLE_ofNatLE, UInt32.toNat_lt, UInt32.ofNat_toNat]
  · rw [htake, hlen, hbody, hdecode]

theorem recordFrame_of_isFrame
    (h : (codec.framing format).IsFrame frame record) : RecordFrame codec format frame record := by
  obtain ⟨head, hhead, hn, -, hsum, hdecode⟩ := read_frame_eq_some.1 h
  have hhead4 : 4 ≤ head := by
    rw [hhead]
    split <;> omega
  have hpayload : (frame.drop head).take (Bytes.toNatLE (frame.take 4)) = frame.drop head :=
    List.take_of_length_le (by rw [List.length_drop]; omega)
  have hlen : (frame.drop head).length = Bytes.toNatLE (frame.take 4) := by
    rw [List.length_drop]
    omega
  have hfour : (frame.take 4).length = 4 := by
    rw [List.length_take]
    omega
  have hlen_bytes : Bytes.ofNatLE 4 (frame.drop head).length = frame.take 4 := by
    grind [Bytes.ofNatLE_toNatLE]
  have hlt := Bytes.toNatLE_lt (frame.take 4)
  rw [hfour, ← hlen] at hlt
  rw [hpayload] at hsum hdecode
  refine ⟨frame.drop head, hlt, hdecode, ?_⟩
  dsimp only
  rw [hlen_bytes]
  cases hcrc : format.has_crc with
  | false =>
      rw [hcrc, if_neg Bool.false_ne_true] at hhead
      rw [if_neg Bool.false_ne_true, List.append_nil, hhead, List.take_append_drop]
  | true =>
      rw [hcrc, if_pos rfl] at hhead
      have hcrc4 : ((frame.drop 4).take 4).length = 4 := by grind
      -- the stored word is the sum, so its bytes are the sum's
      have hword : (codec.crc32 (frame.take 4 ++ frame.drop head)).toNat =
          Bytes.toNatLE ((frame.drop 4).take 4) := by
        grind [Bytes.toNatLE_lt, UInt32.toNat_ofNat']
      have hback := Bytes.ofNatLE_toNatLE ((frame.drop 4).take 4)
      rw [hcrc4] at hback
      rw [if_pos rfl, hword, hback, List.append_assoc, hhead,
        show (8 : ℕ) = 4 + 4 from rfl, ← List.drop_drop, List.take_append_drop,
        List.take_append_drop]

/-- **A turn takes exactly the complete records.** -/
theorem isFrame_iff :
    (codec.framing format).IsFrame frame record ↔ RecordFrame codec format frame record :=
  ⟨recordFrame_of_isFrame, RecordFrame.isFrame⟩

/-- **A frame that is written is one that is read.** -/
theorem isFrame_record_frame (hcodec : codec.Lawful)
    (h : codec.record_frame record = .ok frame) : (codec.framing .V4).IsFrame frame record := by
  simp only [record_frame, encode_payload] at h
  cases hbytes : codec.to_bytes record with
  | error e => rw [hbytes] at h; cases h
  | ok bytes =>
      rw [hbytes] at h
      simp only [Except.mapError, bind, Except.bind] at h
      split at h
      · rename_i hlt
        cases h
        refine RecordFrame.isFrame ⟨bytes, hlt, ?_, rfl⟩
        rw [decode_payload, hcodec record bytes hbytes]
        rfl
      · cases h

theorem frames_of_mapM (hcodec : codec.Lawful) : ∀ {records : List (LogRecord Document)}
    {frames : List Bytes}, records.mapM codec.record_frame = .ok frames →
      (codec.framing .V4).Frames records frames.flatten
  | [], frames, h => by
      cases h
      exact Frames.nil
  | record :: records, frames, h => by
      rw [List.mapM_cons] at h
      cases hframe : codec.record_frame record with
      | error e => rw [hframe] at h; cases h
      | ok frame =>
          cases hrest : records.mapM codec.record_frame with
          | error e => rw [hframe, hrest] at h; cases h
          | ok rest =>
              rw [hframe, hrest] at h
              cases h
              exact Frames.cons (isFrame_record_frame hcodec hframe) (frames_of_mapM hcodec hrest)

/-! ## A whole file -/

theorem read_loop_eq : ∀ (fuel : ℕ) (bytes : Bytes) (scan : WalScan Document),
    (codec.read_loop format fuel bytes scan).records =
        scan.records ++ ((codec.framing format).scan fuel bytes).1 ∧
      (codec.read_loop format fuel bytes scan).valid_len =
        scan.valid_len + ((codec.framing format).scan fuel bytes).2
  | 0, _, scan => by simp [read_loop, Framing.scan]
  | fuel + 1, bytes, scan => by
      unfold read_loop Framing.scan framing
      dsimp only
      cases hread : codec.read_frame format bytes with
      | none => simp
      | some out =>
          obtain ⟨record, n⟩ := out
          obtain ⟨hrecords, hlen⟩ := read_loop_eq fuel (bytes.drop n)
            (scan.push record (scan.valid_len + n))
          grind [WalScan.push, framing]

/-- **What a file holds**: the records that a scan of it finds. -/
def records_of (codec : WalCodec Document) (bytes : Bytes) : List (LogRecord Document) :=
  (codec.scan_file (detect_existing_format bytes) bytes).records

theorem scan_file_eq (codec : WalCodec Document) (format : WalFormat) (bytes : Bytes) :
    (codec.scan_file format bytes).records =
        ((codec.framing format).scan (bytes.length + 1) (bytes.drop format.header_len)).1 ∧
      (codec.scan_file format bytes).valid_len = format.header_len +
        ((codec.framing format).scan (bytes.length + 1) (bytes.drop format.header_len)).2 := by
  simp [read_loop_eq, scan_file]

/-! ## Framings of a file -/

theorem header_len_cases (format : WalFormat) :
    format = .Legacy ∨ format.header_len = WAL_HEADER_LEN := by
  cases format
  · exact Or.inl rfl
  all_goals exact Or.inr rfl

theorem header_len_le (bytes : Bytes) :
    (detect_existing_format bytes).header_len ≤ bytes.length := by
  unfold detect_existing_format
  split
  · exact Nat.zero_le _
  · rename_i hlen
    have hfive : WAL_HEADER_LEN ≤ bytes.length := Nat.not_lt.1 hlen
    split
    · exact Nat.zero_le _
    · dsimp only
      split
      · exact hfive
      · split
        · exact hfive
        · split <;> exact hfive

theorem detect_take (bytes : Bytes) (hn : WAL_HEADER_LEN ≤ n) (hle : n ≤ bytes.length) :
    detect_existing_format (bytes.take n) = detect_existing_format bytes := by
  have hfive : WAL_HEADER_LEN = 5 := rfl
  unfold detect_existing_format
  grind

theorem detect_append (h : WAL_HEADER_LEN ≤ bytes.length) (t : Bytes) :
    detect_existing_format (bytes ++ t) = detect_existing_format bytes := by
  have htake := detect_take (bytes ++ t) h (by rw [List.length_append]; omega)
  grind

theorem detect_wal_header (t : Bytes) :
    detect_existing_format (DocumentLog.wal_header ++ t) = .V4 :=
  (detect_append (by decide) t).trans rfl

theorem length_of_v4 (h : detect_existing_format bytes = .V4) :
    WAL_HEADER_LEN ≤ bytes.length := by
  have hle := header_len_le bytes
  rwa [h] at hle

theorem header_of_v4 (h : detect_existing_format bytes = .V4) :
    bytes.take WAL_HEADER_LEN = DocumentLog.wal_header := by
  have hlen := length_of_v4 h
  unfold detect_existing_format at h
  rw [if_neg (Nat.not_lt.2 hlen)] at h
  by_cases hmagic : bytes.take 4 = WAL_MAGIC
  · rw [if_neg (not_not.2 hmagic)] at h
    by_cases hversion : bytes.getD 4 0 = WAL_VERSION
    · have hfour : 4 < bytes.length := hlen
      have hget : bytes[4]? = some WAL_VERSION := by grind
      rw [WAL_HEADER_LEN, List.take_add_one, hmagic, hget]
      rfl
    grind
  · rw [if_pos hmagic] at h
    cases h

/-- The part of a file that a scan keeps. -/
def valid_len (codec : WalCodec Document) (bytes : Bytes) : ℕ :=
  (codec.scan_file (detect_existing_format bytes) bytes).valid_len

/-- **What a file holds is its longest beginning of whole frames**, and what
follows is none. -/
theorem records_of_frames (codec : WalCodec Document) (bytes : Bytes) :
    let format := detect_existing_format bytes
    ∃ frames rest, bytes = bytes.take format.header_len ++ frames ++ rest ∧
      codec.valid_len bytes = format.header_len + frames.length ∧
      (codec.framing format).Frames (codec.records_of bytes) frames ∧
      codec.read_frame format rest = none := by
  intro format
  obtain ⟨hrecords, hlen⟩ := codec.scan_file_eq format bytes
  have hfuel : (bytes.drop format.header_len).length < bytes.length + 1 := by
    rw [List.length_drop]
    omega
  obtain ⟨hframes, hnone, hle⟩ := (codec.framing format).scan_frames hfuel
  set n := ((codec.framing format).scan (bytes.length + 1) (bytes.drop format.header_len)).2
  refine ⟨(bytes.drop format.header_len).take n, (bytes.drop format.header_len).drop n, ?_, ?_, ?_,
    hnone⟩
  · simp
  · rw [valid_len, hlen, List.length_take, Nat.min_eq_left hle]
  · rw [records_of, hrecords]
    exact hframes

theorem valid_len_le (codec : WalCodec Document) (bytes : Bytes) :
    codec.valid_len bytes ≤ bytes.length := by
  obtain ⟨frames, rest, hbytes, hlen, -⟩ := codec.records_of_frames bytes
  have hheader := header_len_le bytes
  grind

theorem records_of_eq {frames rest : Bytes} {records : List (LogRecord Document)}
    (hformat : detect_existing_format bytes = format)
    (hbytes : bytes.drop format.header_len = frames ++ rest)
    (hframes : (codec.framing format).Frames records frames)
    (hrest : codec.read_frame format rest = none) :
    codec.records_of bytes = records ∧
      codec.valid_len bytes = format.header_len + frames.length := by
  obtain ⟨hrecords, hlen⟩ := codec.scan_file_eq format bytes
  have hfuel : (frames ++ rest).length < bytes.length + 1 := by grind
  have hscan := scan_eq hframes hrest hfuel
  grind [records_of, valid_len]

theorem read_frame_nil (format : WalFormat) : codec.read_frame format [] = none := rfl

theorem records_of_nil (codec : WalCodec Document) :
    codec.records_of [] = [] ∧ codec.valid_len [] = 0 :=
  records_of_eq (rfl : detect_existing_format [] = .Legacy) rfl Frames.nil rfl

theorem records_of_v4 {frames rest : Bytes} {records : List (LogRecord Document)}
    (hframes : (codec.framing .V4).Frames records frames)
    (hrest : codec.read_frame .V4 rest = none) :
    codec.records_of (DocumentLog.wal_header ++ frames ++ rest) = records ∧
      codec.valid_len (DocumentLog.wal_header ++ frames ++ rest) =
        WAL_HEADER_LEN + frames.length := by
  have hformat : detect_existing_format (DocumentLog.wal_header ++ frames ++ rest) = .V4 := by
    exact detect_wal_header _
  refine records_of_eq hformat ?_ hframes hrest
  rfl

theorem records_of_short_header (codec : WalCodec Document) (hk : k ≤ 4) :
    detect_existing_format (DocumentLog.wal_header.take k) = .Legacy ∧
      codec.records_of (DocumentLog.wal_header.take k) = [] := by
  have hformat : detect_existing_format (DocumentLog.wal_header.take k) = .Legacy := by
    unfold detect_existing_format
    rw [if_pos]
    rw [List.length_take]
    exact Nat.lt_of_le_of_lt (Nat.min_le_left _ _) (Nat.lt_succ_of_le hk)
  refine ⟨hformat, (records_of_eq hformat (List.nil_append _).symm Frames.nil ?_).1⟩
  show codec.read_frame .Legacy (DocumentLog.wal_header.take k) = none
  cases hread : codec.read_frame .Legacy (DocumentLog.wal_header.take k) with
  | none => rfl
  | some out =>
      obtain ⟨head, rfl, hn, hle, -⟩ := read_frame_eq_some.1 hread
      -- four bytes of the magic spell a length past any such file
      have hcases : k = 0 ∨ k = 1 ∨ k = 2 ∨ k = 3 ∨ k = 4 := by omega
      rcases hcases with rfl | rfl | rfl | rfl | rfl <;>
        simp [DocumentLog.wal_header, WAL_MAGIC, WalFormat.has_crc, Bytes.toNatLE] at hn hle <;>
        omega

/-- **A cut file holds what the file did**, all of it whole frames. -/
theorem records_of_cut (codec : WalCodec Document) (bytes : Bytes) :
    let cut := bytes.take (codec.valid_len bytes)
    codec.records_of cut = codec.records_of bytes ∧ codec.valid_len cut = cut.length ∧
      (detect_existing_format cut = detect_existing_format bytes) := by
  obtain ⟨frames, rest, hbytes, hlen, hframes, -⟩ := codec.records_of_frames bytes
  have hheader := header_len_le bytes
  set format := detect_existing_format bytes with hformat
  set header := bytes.take format.header_len with hheader_eq
  have hcut : bytes.take (codec.valid_len bytes) = header ++ frames := by grind
  have hdetect : detect_existing_format (header ++ frames) = format := by
    by_cases hfive : WAL_HEADER_LEN ≤ (header ++ frames).length
    · have happend := detect_append hfive rest
      grind
    · have hshort : detect_existing_format (header ++ frames) = .Legacy :=
        if_pos (Nat.not_le.1 hfive)
      grind [header_len_cases]
  intro cut
  have hcut' : cut = header ++ frames := hcut
  have hdrop : cut.drop format.header_len = frames ++ [] := by grind
  obtain ⟨hrecords, hvalid⟩ := records_of_eq (by rw [hcut', hdetect]) hdrop hframes rfl
  grind

end WalCodec

end Laurus
