import Laurus.Common.Bytes
import Laurus.Lexical.Helpers.StoredFields

/-!
# Stored fields round trip

The documents that are written are loaded, each with all its fields, whatever
the chunks they were cut into (`stored_fields_round_trip`). A value comes back
as it was, but for an empty MIME type, which is none, and for the date-times of
an array, which are kept in microseconds.
-/

namespace Laurus

open Laurus.Comp

/-- What is relied on of LZ4: what is compressed is decompressed, and was at
most 255 times as long. -/
structure Lz4.Lawful (lz4 : Lz4) : Prop where
  inverts : ∀ bytes, ∃ compressed, lz4.compress_into bytes = .ok compressed ∧
    lz4.decompress_into compressed bytes.length = .ok bytes
  expands : ∀ bytes compressed, lz4.compress_into bytes = .ok compressed →
    bytes.length ≤ compressed.length * StoredFields.LZ4_MAX_EXPANSION_RATIO

/-- What is relied on of `chrono`: a date-time of a year of four digits is the
one of its text, the microseconds of any are in range, and no part is lost of
whole ones (from 10^9 nanoseconds on it is a leap second). -/
structure Chrono.Lawful {DateTime : Type} (chrono : Chrono DateTime) : Prop where
  text : ∀ dt, 0 ≤ chrono.year dt → chrono.year dt ≤ 9999 →
    chrono.parse_from_rfc3339 (chrono.to_rfc3339 dt) = .ok dt
  range : StoredFields.InRange chrono
  whole : ∀ dt, chrono.nanosecond dt < 10 ^ 9 → chrono.nanosecond dt % 1000 = 0 →
    chrono.from_timestamp_micros (chrono.timestamp_micros dt) = some dt

namespace StoredFields

open StructWriter StructReader StoredFieldsWriter StoredFieldsReader

variable {DateTime : Type} {chrono : Chrono DateTime} {lz4 : Lz4} {crc32 : Bytes → UInt32}

/-! ## A chunk -/

theorem choose_spec (hlz4 : lz4.Lawful) {bytes compressed : Bytes}
    (hcompress : lz4.compress_into bytes = .ok compressed)
    (hinverts : lz4.decompress_into compressed bytes.length = .ok bytes) :
    let chosen := choose bytes compressed
    chunk_bytes lz4 chosen.1 chosen.2 bytes.length = .ok bytes ∧
      chosen.2.length ≤ bytes.length ∧
      bytes.length ≤ chosen.2.length * LZ4_MAX_EXPANSION_RATIO := by
  have hexpands := hlz4.expands bytes compressed hcompress
  dsimp only
  rw [choose]
  by_cases hshorter : compressed.length < bytes.length
  · rw [if_pos hshorter]
    rw [chunk_bytes, if_neg (show CODEC_LZ4 ≠ CODEC_RAW by decide), if_pos rfl]
    grind
  · rw [if_neg hshorter]
    refine ⟨if_pos rfl, Nat.le_refl _, ?_⟩
    rw [ LZ4_MAX_EXPANSION_RATIO]
    dsimp only
    omega

theorem require_eq {condition : Prop} [Decidable condition] {text : String} (h : condition) :
    StoredFieldsReader.require condition text = pure () := if_pos h

/-- **A chunk is read back**, from a file that has it. -/
theorem chunk_round_trip (hlz4 : lz4.Lawful) {bytes : Bytes} {doc_count : ℕ}
    (h64 : bytes.length < 2 ^ 64) (hcount : doc_count * MIN_DOC_RECORD_SIZE ≤ bytes.length) :
    ∃ record : Bytes, 0 < record.length ∧
      Emits (flush_chunk lz4 crc32 bytes doc_count) record () ∧
      ∀ available, record.length ≤ available →
        Reads (read_chunk lz4 crc32 available) record (doc_count, bytes) := by
  obtain ⟨compressed, hcompress, hinverts⟩ := hlz4.inverts bytes
  obtain ⟨hbytes, hshorter, hexpands⟩ := choose_spec hlz4 hcompress hinverts
  rcases hchosen : choose bytes compressed with ⟨codec, payload⟩
  rw [hchosen] at hbytes hshorter hexpands
  dsimp only at hbytes hshorter hexpands
  have hpayload : payload.length < 2 ^ 64 := by omega
  have hdocs : doc_count < 2 ^ 64 := by
    rw [MIN_DOC_RECORD_SIZE] at hcount
    omega
  refine ⟨encode_u64 (UInt64.ofNat doc_count) ++ ([codec] ++
    (encode_u64 (UInt64.ofNat bytes.length) ++ (encode_u64 (UInt64.ofNat payload.length) ++
    (Bytes.ofNatLE 4 (crc32 payload).toNat ++ payload)))), ?_, ?_, fun available hle => ?_⟩
  · simp
  · have hflush : flush_chunk lz4 crc32 bytes doc_count =
        write_chunk crc32 bytes doc_count (codec, payload) := by
      rw [flush_chunk, StoredFieldsWriter.compressed, hcompress]
      grind
    rw [hflush]
    exact (emits_varint _).bind ((emits_u8 codec).bind ((emits_varint _).bind
      ((emits_varint _).bind ((emits_u32 _).bind (emits_raw payload)))))
  · simp only [List.length_append] at hle
    refine (reads_varint _).bind ((reads_u8 codec).bind ((reads_varint _).bind
      ((reads_varint _).bind ((reads_u32 _).bind ?_))))
    rw [toNat_ofNat_length hpayload, toNat_ofNat_length h64, toNat_ofNat_length hdocs,
      checked_len_u64_eq_ok.2 ⟨by omega, hpayload, rfl⟩, read_liftE_ok, pure_bind]
    dsimp only
    rw [require_eq (by omega), pure_bind,
      checked_usize_eq_ok.2 ⟨h64, rfl⟩, read_liftE_ok, pure_bind,
      checked_capacity_u64_eq_ok.2 ⟨hcount, hdocs, rfl⟩, read_liftE_ok, pure_bind]
    refine (reads_raw hpayload).bind_nil ?_
    rw [require_eq rfl, pure_bind, hbytes, read_liftE_ok, pure_bind]
    exact Reads.pure _

/-! ## The chunks -/

variable {docs : List (UInt64 × StoredFields DateTime)}

theorem encode_documents_append (docs more : List (UInt64 × StoredFields DateTime)) :
    encode_documents chrono (docs ++ more) =
      encode_documents chrono docs ++ encode_documents chrono more := List.flatMap_append

theorem encode_documents_singleton (doc : UInt64 × StoredFields DateTime) :
    encode_documents chrono [doc] = encode_document chrono doc.1 doc.2 := List.flatMap_singleton _ _

/-- What fits in memory and comes back: ids that differ, and texts that are
parsed. -/
structure Encodable (chrono : Chrono DateTime) (docs : List (UInt64 × StoredFields DateTime)) :
    Prop where
  ids : (docs.map Prod.fst).Nodup
  texts : ∀ doc ∈ docs, AllParse chrono doc.2
  size : (encode_documents chrono docs).length < 2 ^ 64

theorem Encodable.of_append {more : List (UInt64 × StoredFields DateTime)}
    (h : Encodable chrono (docs ++ more)) : Encodable chrono docs ∧ Encodable chrono more := by
  obtain ⟨hids, htexts, hsize⟩ := h
  rw [List.map_append, List.nodup_append] at hids
  rw [encode_documents_append, List.length_append] at hsize
  exact ⟨⟨hids.1, fun doc hdoc => htexts doc (List.mem_append_left _ hdoc), by omega⟩,
    ⟨hids.2.1, fun doc hdoc => htexts doc (List.mem_append_right _ hdoc), by omega⟩⟩

theorem insert_chunk_eq (hrange : InRange chrono) (h : Encodable chrono docs)
    (documents : StoredDocuments DateTime) : ∃ out,
      insert_chunk chrono (docs.length, encode_documents chrono docs) documents = .ok out ∧
      Holds chrono docs documents out := by
  obtain ⟨out, hreads, hholds⟩ := reads_documents hrange h.texts h.ids h.size documents
  refine ⟨out, ?_, hholds⟩
  rw [insert_chunk, hreads ⟨encode_documents chrono docs, 0⟩ [] (List.append_nil _).symm]
  rfl

theorem reads_chunk (hlz4 : lz4.Lawful) (hrange : InRange chrono) (h : Encodable chrono docs)
    (hne : docs ≠ []) : ∃ record : Bytes, 0 < record.length ∧
      Emits (flush_chunk lz4 crc32 (encode_documents chrono docs) docs.length) record () ∧
      ∀ (decoded : ℕ) (documents : StoredDocuments DateTime), ∃ out,
        Holds chrono docs documents out ∧
        ∀ {total turns : ℕ} {bs : Bytes} {result : ℕ × StoredDocuments DateTime},
          decoded + docs.length ≤ total →
          Reads (load_chunks chrono lz4 crc32 total turns (decoded + docs.length) out) bs result →
          Reads (load_chunks chrono lz4 crc32 total (turns + 1) decoded documents) (record ++ bs)
            result := by
  obtain ⟨record, hpos, hemits, hreads⟩ :=
    @chunk_round_trip lz4 crc32 hlz4 (encode_documents chrono docs) docs.length h.size
      (length_encode_documents docs)
  refine ⟨record, hpos, hemits, fun decoded documents => ?_⟩
  obtain ⟨out, hinsert, hholds⟩ := insert_chunk_eq hrange h documents
  refine ⟨out, hholds, fun {total turns bs result} hle hrest => ?_⟩
  have hlen := List.length_pos_iff.2 hne
  rw [load_chunks, if_pos (by omega)]
  refine Reads.of_step fun r t hr => ⟨r, get_apply r, ?_⟩
  have hremaining := remaining_of_rest hr
  rw [List.length_append] at hremaining
  refine (hreads r.remaining (by omega)).bind ?_
  rw [hinsert, read_liftE_ok, pure_bind]
  exact hrest

/-- **All chunks are read back**, with the documents that wait for theirs,
however they are cut. -/
theorem chunks_round_trip (hlz4 : lz4.Lawful) (hrange : InRange chrono) :
    ∀ {docs pending : List (UInt64 × StoredFields DateTime)}, (docs = [] → pending = []) →
      Encodable chrono (pending ++ docs) →
      ∃ bs : Bytes, Emits (write_documents chrono lz4 crc32 (encode_documents chrono pending)
          pending.length docs) bs () ∧
        ∀ (decoded : ℕ) (documents : StoredDocuments DateTime),
          ∃ out, Holds chrono (pending ++ docs) documents out ∧
          ∀ {total turns : ℕ}, total = decoded + (pending ++ docs).length → bs.length < turns →
            Reads (load_chunks chrono lz4 crc32 total turns decoded documents) bs (total, out) := by
  intro docs
  induction docs with
  | nil =>
      intro pending hpending _
      obtain rfl := hpending rfl
      refine ⟨[], Emits.pure (), fun decoded documents => ⟨documents,
        ⟨fun _ h => absurd h List.not_mem_nil, fun _ _ => rfl⟩, ?_⟩⟩
      intro total turns htotal hturns
      obtain ⟨turns, rfl⟩ := Nat.exists_eq_succ_of_ne_zero (Nat.ne_of_gt hturns)
      obtain rfl : total = decoded := htotal
      rw [load_chunks, if_neg (Nat.lt_irrefl _)]
      exact Reads.pure _
  | cons doc docs ih =>
      intro pending _ h
      have hbuf : encode_documents chrono pending ++ encode_document chrono doc.1 doc.2 =
          encode_documents chrono (pending ++ [doc]) := by
        rw [encode_documents_append, encode_documents_singleton]
      have hcount : pending.length + 1 = (pending ++ [doc]).length := by simp
      rw [List.append_cons] at h ⊢
      rw [write_documents, hbuf, hcount]
      split
      · -- the chunk is cut after this document
        obtain ⟨hchunk, hothers⟩ := h.of_append
        obtain ⟨record, hpos, hflush, hreads⟩ :=
          @reads_chunk _ chrono lz4 crc32 _ hlz4 hrange hchunk (by simp)
        obtain ⟨bs, hemits, hrest⟩ := @ih [] (fun _ => rfl) hothers
        refine ⟨record ++ bs, hflush.bind hemits, fun decoded documents => ?_⟩
        obtain ⟨between, hfirst, hturn⟩ := hreads decoded documents
        obtain ⟨out, hlast, hloop⟩ := hrest (decoded + (pending ++ [doc]).length) between
        refine ⟨out, hfirst.append hlast h.ids, fun {total turns} htotal hturns => ?_⟩
        obtain ⟨turns, rfl⟩ := Nat.exists_eq_succ_of_ne_zero (show turns ≠ 0 by omega)
        grind
      · -- the chunk goes on
        refine ih (fun hnil => ?_) h
        grind

/-! ## The part -/

theorem Encodable.perm {docs' : List (UInt64 × StoredFields DateTime)}
    (h : Encodable chrono docs) (hperm : docs.Perm docs') : Encodable chrono docs' where
  ids := (hperm.map Prod.fst).nodup_iff.1 h.ids
  texts := fun doc hdoc => h.texts doc (hperm.mem_iff.2 hdoc)
  size := by
    rw [encode_documents, ← (hperm.flatMap_right _).length_eq]
    exact h.size

theorem reads_header (count : UInt64) :
    Reads read_header (MAGIC ++ ([VERSION_MAJOR, VERSION_MINOR] ++ encode_u64 count)) count := by
  refine (@reads_raw MAGIC (by decide)).bind ?_
  rw [require_eq rfl, pure_bind]
  refine (reads_u8 VERSION_MAJOR).bind ((reads_u8 VERSION_MINOR).bind ?_)
  exact reads_varint count

/-- **The part is written, and loaded.** -/
theorem load_file (hlz4 : lz4.Lawful) (hrange : InRange chrono) (h : Encodable chrono docs) :
    ∃ file r documents, StoredFieldsWriter.file chrono lz4 crc32 docs = .ok file ∧
      load chrono lz4 crc32 (StructReader.new file) = .ok (documents, r) ∧
      Holds chrono docs ∅ documents := by
  have hperm : (order docs).Perm docs := List.mergeSort_perm _ _
  have hlen := @length_encode_documents _ chrono docs
  have hsize := h.size
  have hfew : docs.length < 2 ^ 64 := by
    rw [MIN_DOC_RECORD_SIZE] at hlen
    omega
  obtain ⟨bs, hemits, hloop⟩ :=
    @chunks_round_trip _ chrono lz4 crc32 hlz4 hrange (order docs) [] (fun _ => rfl)
      (h.perm hperm.symm)
  obtain ⟨documents, hholds, hreads⟩ := hloop 0 ∅
  have htotal : docs.length = 0 + ([] ++ order docs).length := by
    rw [List.nil_append, Nat.zero_add, hperm.length_eq]
  have hwrite : Emits (write_to chrono lz4 crc32 docs) (MAGIC ++
      ([VERSION_MAJOR, VERSION_MINOR] ++ (encode_u64 (UInt64.ofNat docs.length) ++ bs))) () :=
    (emits_raw _).bind ((emits_raw _).bind ((emits_varint _).bind hemits))
  have hread : Reads (do
      let total_doc_count ← read_header
      let r ← get
      let loaded ← load_chunks chrono lz4 crc32 total_doc_count.toNat (r.remaining + 1) 0 ∅
      StoredFieldsReader.require (loaded.1 = total_doc_count.toNat)
        (s!"stored-fields: header declares {total_doc_count} documents but chunks totalled " ++
          s!"{loaded.1} — segment is corrupted")
      return loaded.2) (MAGIC ++ ([VERSION_MAJOR, VERSION_MINOR] ++
        (encode_u64 (UInt64.ofNat docs.length) ++ bs))) documents := by
    refine (reads_header (UInt64.ofNat docs.length)).bind ?_
    rw [toNat_ofNat_length hfew]
    refine Reads.of_step fun r t hr => ⟨r, get_apply r, ?_⟩
    have hremaining := remaining_of_rest hr
    refine (hreads htotal (by omega)).bind_nil ?_
    rw [require_eq rfl, pure_bind]
    exact Reads.pure documents
  obtain ⟨w, hw, hclose⟩ := close_of_emits crc32 hwrite
  obtain ⟨r, hload⟩ := read_closed crc32 "stored fields" hread
  simp only [bind_assoc, pure_bind] at hload
  refine ⟨_, r, documents, ?_, hload, ?_⟩
  · rw [StoredFieldsWriter.file, hw]
    exact hclose
  · exact ⟨fun doc hdoc => hholds.written doc (hperm.mem_iff.2 hdoc), fun id hid =>
      hholds.others id fun hmem => hid ((hperm.map Prod.fst).mem_iff.1 hmem)⟩

/-! ## What a value keeps -/

/-- A value that loses nothing: no MIME type is empty, and a date-time of an
array has whole microseconds. -/
def Exact (chrono : Chrono DateTime) : DataValue DateTime → Prop
  | .Bytes _ mime => mime ≠ some ""
  | .BytesArray arr => ∀ blob ∈ arr, blob.2 ≠ some ""
  | .DateTimeArray arr =>
    ∀ dt ∈ arr, chrono.nanosecond dt < 10 ^ 9 ∧ chrono.nanosecond dt % 1000 = 0
  | _ => True

theorem filter_mime {mime : Option String} (h : mime ≠ some "") :
    (mime.filter fun mime => !mime.isEmpty) = mime := by
  rcases mime with _ | mime
  · rfl
  · have hne : mime.isEmpty = false := by
      rw [Bool.eq_false_iff, ne_eq, String.isEmpty_iff]
      exact fun heq => h (congrArg some heq)
    rw [Option.filter_some, hne]
    rfl

theorem map_eq_of_forall {α : Type} {f : α → α} {arr : List α} (h : ∀ a ∈ arr, f a = a) :
    arr.map f = arr := (List.map_congr_left h).trans (List.map_id arr)

/-- **Such a value comes back as it was.** -/
theorem restored_exact (hchrono : chrono.Lawful) {value : DataValue DateTime}
    (h : Exact chrono value) : restored chrono value = value := by
  rcases value with _ | b | num | num | text | ⟨data, mime⟩ | v | dt | p | p | arr | arr | arr |
    arr | arr | arr | arr | arr | arr
  case Bytes => exact congrArg (DataValue.Bytes data) (filter_mime h)
  case BytesArray =>
    refine congrArg DataValue.BytesArray (map_eq_of_forall fun blob hblob => ?_)
    rw [restored_blob, filter_mime (h blob hblob)]
  case DateTimeArray =>
    refine congrArg DataValue.DateTimeArray (map_eq_of_forall fun dt hdt => ?_)
    rw [to_micros, hchrono.whole dt (h dt hdt).1 (h dt hdt).2]
    rfl
  all_goals rfl

/-- The documents that are written: ids that differ, dates whose year has four
digits, and no more bytes than fit in memory. -/
structure Storable (chrono : Chrono DateTime) (docs : List (UInt64 × StoredFields DateTime)) :
    Prop where
  ids : (docs.map Prod.fst).Nodup
  dates : ∀ doc ∈ docs, ∀ name dt, doc.2.lookup name = some (.DateTime dt) →
    0 ≤ chrono.year dt ∧ chrono.year dt ≤ 9999
  size : (encode_documents chrono docs).length < 2 ^ 64

theorem Storable.encodable (hchrono : chrono.Lawful) (h : Storable chrono docs) :
    Encodable chrono docs where
  ids := h.ids
  texts := by
    rintro doc hdoc name value hvalue dt rfl
    grind [dates, Chrono.Lawful.text]
  size := h.size

end StoredFields

open StoredFields

/-- **The round trip**: the documents that are written are loaded, each with
just its fields, every value restored; none has an id that was not written. A
value is restored to itself but for an empty MIME type, and for what a
date-time of an array has below a microsecond. -/
theorem stored_fields_round_trip {DateTime : Type} {chrono : Chrono DateTime} {lz4 : Lz4}
    (crc32 : Bytes → UInt32) {docs : List (UInt64 × StoredFields DateTime)}
    (hchrono : chrono.Lawful) (hlz4 : lz4.Lawful) (h : Storable chrono docs) :
    (∃ file r documents, StoredFieldsWriter.file chrono lz4 crc32 docs = .ok file ∧
      StoredFieldsReader.load chrono lz4 crc32 (StructReader.new file) = .ok (documents, r) ∧
      (∀ doc ∈ docs, ∃ fields, documents.lookup doc.1 = some fields ∧
        ∀ name, fields.lookup name = (doc.2.lookup name).map (restored chrono)) ∧
      ∀ id, id ∉ docs.map Prod.fst → documents.lookup id = none) ∧
    ∀ value, Exact chrono value → restored chrono value = value := by
  obtain ⟨file, r, documents, hfile, hload, hholds⟩ :=
    @load_file _ chrono lz4 crc32 _ hlz4 hchrono.range (h.encodable hchrono)
  exact ⟨⟨file, r, documents, hfile, hload, hholds.written, hholds.others⟩,
    fun value hvalue => restored_exact hchrono hvalue⟩

/-! ## A document -/

namespace StoredFields

/-- A block of literals alone, as LZ4 makes it of bytes that do not repeat: how
many there are, then the bytes. -/
def literals (bytes : Bytes) : Bytes :=
  (if bytes.length < 15 then [UInt8.ofNat (bytes.length * 16)]
  else 0xF0 :: (List.replicate ((bytes.length - 15) / 255) 255 ++
    [UInt8.ofNat ((bytes.length - 15) % 255)])) ++ bytes

/-- LZ4 with such blocks. -/
def literal_lz4 : Lz4 where
  compress_into bytes := .ok (literals bytes)
  decompress_into payload size :=
    if literals (payload.drop (payload.length - size)) = payload then
      .ok (payload.drop (payload.length - size))
    else .error "the expected decompressed size differs"

theorem literal_lz4_lawful : literal_lz4.Lawful where
  inverts := by
    intro bytes
    refine ⟨literals bytes, rfl, ?_⟩
    have hdrop : (literals bytes).drop ((literals bytes).length - bytes.length) = bytes := by
      rw [literals, List.length_append, Nat.add_sub_cancel, List.drop_left]
    show (if literals ((literals bytes).drop _) = literals bytes then _ else _) = _
    rw [hdrop, if_pos rfl]
  expands := by
    rintro bytes compressed heq
    obtain rfl := Except.ok.inj heq
    rw [literals, List.length_append, LZ4_MAX_EXPANSION_RATIO]
    omega

/-- The text of the epoch. -/
def epoch_text : String := "1970-01-01T00:00:00+00:00"

/-- `chrono`, at the epoch alone. -/
def epoch : Chrono Unit where
  year _ := 1970
  nanosecond _ := 0
  to_rfc3339 _ := epoch_text
  parse_from_rfc3339 s :=
    if s = epoch_text then .ok () else .error "input contains invalid characters"
  timestamp_micros _ := 0
  from_timestamp_micros micros := if micros = 0 then some () else none

theorem epoch_lawful : epoch.Lawful where
  text := by
    intro _ _ _
    simp [epoch]
  range := fun _ => rfl
  whole := fun _ _ _ => rfl

/-- A document of one field. -/
def one_field (name : String) (value : DataValue Unit) : UInt64 × StoredFields Unit :=
  (0x0807060504030201, AList.singleton name value)

theorem sorted_names_one_field (name : String) (value : DataValue Unit) :
    sorted_names (one_field name value).2 = [name] := List.mergeSort_singleton _

theorem storable_one_field {name : String} {value : DataValue Unit}
    (h : (push_str name ++ encode_value epoch value).length < 2 ^ 63) :
    Storable epoch [one_field name value] where
  ids := List.nodup_singleton _
  dates := fun _ _ _ _ _ => ⟨show (0 : ℤ) ≤ 1970 by decide, show (1970 : ℤ) ≤ 9999 by decide⟩
  size := by
    have hlookup : (one_field name value).2.lookup name = some value := by
      rw [one_field, ← AList.insert_empty, AList.lookup_insert]
    have hcount : (push_varint (UInt64.ofNat (one_field name value).2.keys.length)).length = 1 := by
      show (push_varint 1).length = 1
      decide
    grind [encode_documents_singleton, encode_document, sorted_names_one_field, encode_field_some,
      length_push_u64]

end StoredFields

/-- The epoch in a document. -/
theorem stored_fields_round_trip_epoch :
    (∃ file r documents,
      StoredFieldsWriter.file epoch literal_lz4 Crc32.checksum [one_field "at" (.DateTime ())] =
        .ok file ∧
      StoredFieldsReader.load epoch literal_lz4 Crc32.checksum (StructReader.new file) =
        .ok (documents, r) ∧
      (∀ doc ∈ [one_field "at" (.DateTime ())], ∃ fields, documents.lookup doc.1 = some fields ∧
        ∀ name, fields.lookup name = (doc.2.lookup name).map (restored epoch)) ∧
      ∀ id, id ∉ [one_field "at" (.DateTime ())].map Prod.fst → documents.lookup id = none) ∧
    ∀ value, Exact epoch value → restored epoch value = value :=
  stored_fields_round_trip Crc32.checksum epoch_lawful literal_lz4_lawful
    (storable_one_field (by decide))

/-- An empty MIME type is loaded as none. -/
theorem stored_fields_round_trip_counterexample :
    ∃ file r documents fields,
      StoredFieldsWriter.file epoch literal_lz4 Crc32.checksum
        [one_field "a" (.Bytes [] (some ""))] = .ok file ∧
      StoredFieldsReader.load epoch literal_lz4 Crc32.checksum (StructReader.new file) =
        .ok (documents, r) ∧
      documents.lookup 0x0807060504030201 = some fields ∧
      fields.lookup "a" = some (.Bytes [] none) ∧
      (one_field "a" (.Bytes [] (some ""))).2.lookup "a" = some (.Bytes [] (some "")) := by
  have h : Storable epoch [one_field "a" (.Bytes [] (some ""))] := storable_one_field (by decide)
  obtain ⟨file, r, documents, hfile, hload, hholds⟩ :=
    @load_file _ epoch literal_lz4 Crc32.checksum _ literal_lz4_lawful epoch_lawful.range
      (h.encodable epoch_lawful)
  obtain ⟨fields, hlookup, hrestores⟩ := hholds.written _ List.mem_cons_self
  exact ⟨file, r, documents, fields, hfile, hload, hlookup, hrestores "a", rfl⟩

end Laurus
