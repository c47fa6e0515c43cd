import Laurus.Vector.Helpers.MultiVectorFormat

/-!
# The parts of a multi-vector segment, read back

A reader's `rows` and its checksum are slices of the file, on both paths (`rows_eq`,
`payload_checksum_eq`). A header, a table and a payload that are laid one after another are
opened to what they hold (`parsed_file`), and a document finds its own rows among those of
the others (`rows_at_split`).
-/

namespace Laurus

namespace MultiVector

variable {codec : RowCodec} {dimension : ℕ} {file_name : String} {bytes : Bytes}
variable {zero_copy : Bool} {header : Header} {table : DocTable}

/-! ## Slices of the file -/

/-- **The rows of a document are a slice of the file**, whichever way it is read. -/
theorem rows_eq (hkind : table.codec.kind = header.kind)
    (hlen : header.file_len = some bytes.length) {doc_id : UInt64} {first count : ℕ}
    {pool_factor : UInt32}
    (hlookup : (table.doc_ids.zip table.spans).lookup doc_id = some (first, count, pool_factor))
    (hcount : first + count ≤ header.vector_count) :
    (SegmentReader.of_table header table header.table_end (opened_input bytes zero_copy)).rows
      doc_id = .ok (some ⟨table.codec, header.dimension,
        (bytes.drop (header.table_end + first * header.kind.row_bytes header.dimension)).take
          (count * header.kind.row_bytes header.dimension)⟩) := by
  obtain ⟨hlt, hfile⟩ := file_len_eq_some.1 hlen
  have hmul := Nat.mul_le_mul_right (header.kind.row_bytes header.dimension) hcount
  rw [Nat.add_mul, ← Header.payload_size] at hmul
  have hstart : (header.table_end + first * header.kind.row_bytes header.dimension) % 2 ^ 64 =
      header.table_end + first * header.kind.row_bytes header.dimension :=
    Nat.mod_eq_of_lt (by omega)
  have hsize : count * header.kind.row_bytes header.dimension % 2 ^ 64 =
      count * header.kind.row_bytes header.dimension := Nat.mod_eq_of_lt (by omega)
  have hstop : (header.table_end + first * header.kind.row_bytes header.dimension +
      count * header.kind.row_bytes header.dimension) % 2 ^ 64 =
      header.table_end + first * header.kind.row_bytes header.dimension +
      count * header.kind.row_bytes header.dimension := Nat.mod_eq_of_lt (by omega)
  rw [SegmentReader.rows]
  simp only [SegmentReader.of_table, hlookup, hkind, hstart, hsize, hstop]
  rcases zero_copy with _ | _
  · simp only [SegmentInput.as_slice, opened_input, Bool.false_eq_true, if_false,
      SegmentInput.seek]
    rw [read_exact_eq (by omega)]
    rfl
  · simp only [SegmentInput.as_slice, opened_input, if_true, List.drop_zero]
    rw [slice_eq ⟨by omega, by omega⟩, List.drop_take, Nat.add_sub_cancel_left]
    rfl

theorem rows_eq_none {input : SegmentInput} {table_end : ℕ} {doc_id : UInt64}
    (hlookup : (table.doc_ids.zip table.spans).lookup doc_id = none) :
    (SegmentReader.of_table header table table_end input).rows doc_id = .ok none := by
  rw [SegmentReader.rows]
  simp only [SegmentReader.of_table, hlookup]

theorem hash_stream_eq {fuel position remaining : ℕ} {crc : UInt32} (hfuel : remaining ≤ fuel)
    (h : position + remaining ≤ bytes.length) :
    SegmentReader.hash_stream fuel ⟨bytes, zero_copy, position⟩ remaining crc =
      .ok (((bytes.drop position).take remaining).foldl Crc32.update crc) := by
  induction fuel generalizing position remaining crc with
  | zero =>
      obtain rfl := Nat.le_zero.1 hfuel
      rw [SegmentReader.hash_stream, List.take_zero, List.foldl_nil]
  | succ fuel ih =>
      rw [SegmentReader.hash_stream]
      by_cases hzero : remaining = 0
      · grind
      dsimp only
      rw [read_exact_eq (by omega)]
      simp only [bind, Except.bind]
      -- what is left starts where the chunk ends
      have hsplit : remaining = min remaining 65536 + (remaining - min remaining 65536) := by omega
      grind [List.drop_drop]

/-- **The checksum is of the payload's slice of the file.** -/
theorem payload_checksum_eq (hlen : header.file_len = some bytes.length) :
    (SegmentReader.of_table header table header.table_end
      (opened_input bytes zero_copy)).payload_checksum header.payload_size =
      .ok (Crc32.checksum ((bytes.drop header.table_end).take header.payload_size)) := by
  obtain ⟨hlt, hfile⟩ := file_len_eq_some.1 hlen
  have hstop : (header.table_end + header.payload_size) % 2 ^ 64 =
      header.table_end + header.payload_size := Nat.mod_eq_of_lt (by omega)
  rw [SegmentReader.payload_checksum]
  simp only [SegmentReader.of_table, hstop]
  rcases zero_copy with _ | _
  · simp only [SegmentInput.as_slice, opened_input, Bool.false_eq_true, if_false,
      SegmentInput.seek]
    rw [hash_stream_eq (Nat.le_refl _) (by omega)]
    rfl
  · simp only [SegmentInput.as_slice, opened_input, if_true, List.drop_zero]
    rw [slice_eq ⟨by omega, by omega⟩, List.drop_take, Nat.add_sub_cancel_left]
    rfl

theorem verify_payload_eq (hkind : table.codec.kind = header.kind)
    (hlen : header.file_len = some bytes.length) :
    (SegmentReader.of_table header table header.table_end
      (opened_input bytes zero_copy)).verify_payload =
      if (Crc32.checksum ((bytes.drop header.table_end).take header.payload_size)).toNat ≠
          table.payload_crc then
        .error (.error (LaurusError.index "multi-vector segment payload checksum mismatch"))
      else .ok () := by
  obtain ⟨hlt, hfile⟩ := file_len_eq_some.1 hlen
  have hsize : header.vector_count * header.kind.row_bytes header.dimension % 2 ^ 64 =
      header.payload_size := Nat.mod_eq_of_lt (by rw [← Header.payload_size]; omega)
  change (SegmentReader.payload_checksum _
    (header.vector_count * table.codec.kind.row_bytes header.dimension % 2 ^ 64) >>= _) = _
  rw [hkind, hsize, payload_checksum_eq hlen]
  rfl

/-! ## The codec -/

theorem length_write_block (params : BinaryParams) :
    params.write_block.length = BinaryParams.block_len params.dimension := by
  have hstored : (params.bits.flatMap fun b => Bytes.ofNatLE 2 b.toNat).length =
      params.bits.length * 2 := length_flatMap_const fun b _ => Bytes.length_ofNatLE _ _
  have hlength := params.length
  rw [BinaryParams.write_block, List.length_append, List.length_replicate, hstored, BinaryParams.block_len]
  omega

/-- **Parameters are read back.** -/
theorem read_block_write_block (params : BinaryParams) :
    BinaryParams.read_block params.write_block params.dimension = .ok params := by
  have hblock := length_write_block params
  rw [BinaryParams.block_len] at hblock
  have hwords : Bytes.wordsLE 2 (2 * params.dimension) params.write_block =
      params.bits.map UInt16.toNat := by
    have hlength : (params.bits.map UInt16.toNat).length = 2 * params.dimension := by
      rw [List.length_map, params.length]
    rw [← hlength, BinaryParams.write_block, ← List.flatMap_map]
    refine Bytes.wordsLE_flatMap (fun v hv => ?_) _
    obtain ⟨b, _, rfl⟩ := List.mem_map.1 hv
    exact b.toNat_lt
  have hback : (params.bits.map UInt16.toNat).map UInt16.ofNat = params.bits := by
    rw [List.map_map]
    exact (List.map_congr_left fun b _ => UInt16.ofNat_toNat).trans (List.map_id _)
  rw [BinaryParams.read_block, if_pos (by omega), hwords, hback, BinaryParams.from_f16_bits,
    dif_pos ⟨params.pos, params.length⟩, dif_pos ⟨params.finite, params.spread⟩]

/-- The parameters of a codec as they stand in a file. -/
def codec_block (codec : RowCodec) : Bytes :=
  (codec.binary_params.map BinaryParams.write_block).getD []

theorem length_codec_block (hfits : codec.Fits dimension) :
    (codec_block codec).length = codec.kind.params_len dimension := by
  rcases codec with _ | _ | _ | params
  · rfl
  · rfl
  · rfl
  · have hdimension : params.dimension = dimension := hfits params rfl
    exact (length_write_block params).trans (congrArg _ hdimension)

/-- **A codec is read back.** -/
theorem parse_codec_block (hfits : codec.Fits dimension) {doc_count vector_count : ℕ}
    (front rest : Bytes) (hfront : front.length = HEADER_LEN) :
    parse_codec file_name ⟨codec.kind, dimension, doc_count, vector_count⟩
      (front ++ codec_block codec ++ rest) = .ok codec := by
  have hlength := length_codec_block hfits
  rcases codec with _ | _ | _ | params
  · rfl
  · rfl
  · rfl
  · have hdimension : params.dimension = dimension := hfits params rfl
    have hblock : ((front ++ codec_block (RowCodec.Binary params) ++ rest).drop HEADER_LEN).take
        (MultiVectorStorage.Binary.params_len dimension) = params.write_block := by
      rw [List.append_assoc, List.drop_left' hfront]
      exact List.take_left' hlength
    grind [parse_codec, Header.params_len, RowCodec.kind, RowCodec.plain, read_block_write_block]

theorem kind_of_parse_codec {meta_part : Bytes}
    (h : parse_codec file_name header meta_part = .ok codec) : codec.kind = header.kind := by
  rw [parse_codec] at h
  rcases hkind : header.kind with _ | _ | _ | _
  all_goals
    rw [hkind] at h
    dsimp only [RowCodec.plain] at h
  · rw [← Except.ok.inj h]
    rfl
  · rw [← Except.ok.inj h]
    rfl
  · rw [← Except.ok.inj h]
    rfl
  · rcases hread : BinaryParams.read_block ((meta_part.drop HEADER_LEN).take header.params_len)
        header.dimension with e | params
    · grind
    · rw [hread] at h
      rw [← Except.ok.inj h]
      rfl

/-! ## The file -/

theorem ofNatLE_mod (width v : ℕ) : Bytes.ofNatLE width (v % 256 ^ width) =
    Bytes.ofNatLE width v := by
  induction width generalizing v with
  | zero => rfl
  | succ width ih =>
      have hlow : v % 256 ^ (width + 1) % 256 = v % 256 :=
        Nat.mod_mod_of_dvd _ (Dvd.intro_left _ (pow_succ 256 width).symm)
      grind [Nat.mod_mul_right_div_self, Bytes.ofNatLE]

/-- The header that a reader finds of documents. -/
def stored_header (codec : RowCodec) (dimension : ℕ) (docs : List DocEntry) : Header :=
  ⟨codec.kind, dimension, docs.length, total_vectors docs % 2 ^ 64⟩

/-- The table that a reader finds of documents. -/
def stored_table (codec : RowCodec) (docs : List DocEntry) (payload_crc : UInt32) : DocTable :=
  ⟨codec, docs.map fun d => d.doc_id, spans_from 0 docs, payload_crc.toNat⟩

/-- A file of documents, with a payload and a checksum of it. -/
def file_of (codec : RowCodec) (dimension : ℕ) (docs : List DocEntry) (payload : Bytes)
    (payload_crc : UInt32) : Bytes :=
  meta_bytes codec dimension docs ++ payload ++
    footer_bytes (Crc32.checksum (meta_bytes codec dimension docs)) payload_crc

variable {docs : List DocEntry} {payload : Bytes} {payload_crc : UInt32}

theorem meta_bytes_eq : meta_bytes codec dimension docs =
    (stored_header codec dimension docs).encode ++ codec_block codec ++ table_bytes 0 docs := by
  have hvectors : Bytes.ofNatLE 8 (total_vectors docs % 2 ^ 64) =
      Bytes.ofNatLE 8 (total_vectors docs) := ofNatLE_mod 8 (total_vectors docs)
  have hheader : (header_of codec dimension docs).encode =
      (stored_header codec dimension docs).encode := by
    simp only [Header.encode, header_of, stored_header, hvectors]
    rfl
  rw [meta_bytes, hheader]
  rfl

theorem length_meta_bytes (hfits : codec.Fits dimension) :
    (meta_bytes codec dimension docs).length = (stored_header codec dimension docs).table_end := by
  rw [meta_bytes_eq, List.length_append, List.length_append, length_encode,
    length_codec_block hfits, length_table_bytes]
  change HEADER_LEN + codec.kind.params_len dimension + docs.length * DOC_ENTRY_LEN =
    docs.length * DOC_ENTRY_LEN + HEADER_LEN + codec.kind.params_len dimension
  omega

theorem length_footer_bytes (meta_crc payload_crc : UInt32) :
    (footer_bytes meta_crc payload_crc).length = FOOTER_LEN := by
  rfl

theorem footer_magic (meta_crc payload_crc : UInt32) :
    ((footer_bytes meta_crc payload_crc).drop 8).take 4 = FOOTER_MAGIC := by
  rfl

theorem footer_crcs (meta_crc payload_crc : UInt32) :
    number_at (footer_bytes meta_crc payload_crc) 0 4 = meta_crc.toNat ∧
      number_at (footer_bytes meta_crc payload_crc) 4 4 = payload_crc.toNat := by
  constructor
  · exact number_at_ofNatLE []
      (Bytes.ofNatLE 4 payload_crc.toNat ++ FOOTER_MAGIC ++ List.replicate 4 0)
      (by simp only [footer_bytes, List.append_assoc, List.nil_append]) rfl meta_crc.toNat_lt
  · exact number_at_ofNatLE (Bytes.ofNatLE 4 meta_crc.toNat) (FOOTER_MAGIC ++ List.replicate 4 0)
      (by simp only [footer_bytes, List.append_assoc]) (Bytes.length_ofNatLE _ _)
      payload_crc.toNat_lt

/-- **A file that is laid down holds its documents.** -/
theorem parsed_file (hpos : 0 < dimension) (hdimension : dimension < 2 ^ 32)
    (hfits : codec.Fits dimension) (hdocs : Ordered docs)
    (hpayload : payload.length = (stored_header codec dimension docs).payload_size)
    (hlength : (file_of codec dimension docs payload payload_crc).length < 2 ^ 64) :
    Parsed file_name (file_of codec dimension docs payload payload_crc)
      (stored_header codec dimension docs) (stored_table codec docs payload_crc) := by
  have hmeta := @length_meta_bytes codec dimension docs hfits
  have hfile : (file_of codec dimension docs payload payload_crc).length =
      (stored_header codec dimension docs).table_end +
        (stored_header codec dimension docs).payload_size + FOOTER_LEN := by
    rw [file_of, List.length_append, List.length_append, length_footer_bytes, hmeta, hpayload]
  have hend : (stored_header codec dimension docs).table_end =
      docs.length * DOC_ENTRY_LEN + HEADER_LEN + codec.kind.params_len dimension := rfl
  have hentry : DOC_ENTRY_LEN = 24 := rfl
  refine ⟨?_, file_len_eq_some.2 ⟨hlength, hfile⟩, ?_⟩
  · have hheader : (file_of codec dimension docs payload payload_crc).take HEADER_LEN =
        (stored_header codec dimension docs).encode := by
      rw [file_of, meta_bytes_eq]
      simp only [List.append_assoc]
      exact List.take_left' (length_encode _)
    rw [hheader]
    refine decode_encode hpos hdimension ?_ (Nat.mod_lt _ (by decide))
    change docs.length < 2 ^ 64
    grind
  have hmeta_part : (file_of codec dimension docs payload payload_crc).take
      (stored_header codec dimension docs).table_end = meta_bytes codec dimension docs := by
    rw [file_of, List.append_assoc, List.take_left' hmeta]
  have hfooter : (file_of codec dimension docs payload payload_crc).drop
      ((file_of codec dimension docs payload payload_crc).length - FOOTER_LEN) =
      footer_bytes (Crc32.checksum (meta_bytes codec dimension docs)) payload_crc := by
    rw [file_of, List.drop_left']
    rw [List.length_append, List.length_append, List.length_append, length_footer_bytes,
      Nat.add_sub_cancel]
  rw [hmeta_part, hfooter, parse_meta]
  have hcodec : parse_codec file_name (stored_header codec dimension docs)
      (meta_bytes codec dimension docs) = .ok codec := by
    exact parse_codec_block hfits _ _ (length_encode _)
  have htable : (meta_bytes codec dimension docs).drop
      (HEADER_LEN + (stored_header codec dimension docs).params_len) = table_bytes 0 docs := by
    rw [meta_bytes_eq]
    refine List.drop_left' ?_
    rw [List.length_append, length_encode, length_codec_block hfits]
    rfl
  have hcount : (table_bytes 0 docs).length / DOC_ENTRY_LEN = docs.length := by
    rw [length_table_bytes, Nat.mul_div_cancel _ (by decide)]
  have hentries := @parse_entries_table file_name docs ⟨[], [], 0⟩ (by decide) hdocs.1 hdocs.2
  obtain ⟨hmeta_crc, hpayload_crc⟩ := footer_crcs
    (Crc32.checksum (meta_bytes codec dimension docs)) payload_crc
  rw [if_neg (not_not.2 (footer_magic _ _)), if_neg (not_not.2 hmeta_crc.symm), hcodec]
  dsimp only
  rw [htable, hcount, hentries]
  have hnext : (0 + total_vectors docs) % 2 ^ 64 =
      (stored_header codec dimension docs).vector_count := by
    rw [Nat.zero_add]
    rfl
  dsimp only
  rw [if_neg (not_not.2 hnext), hpayload_crc]
  rfl

/-! ## Documents of a table -/

theorem total_vectors_append (docs rest : List DocEntry) :
    total_vectors (docs ++ rest) = total_vectors docs + total_vectors rest := by
  rw [total_vectors, total_vectors, total_vectors, List.map_append, List.sum_append]

/-- **The entries of a table are its documents.** -/
theorem entries_of_spans (first_vector : ℕ) (docs : List DocEntry) :
    ((docs.map fun d => d.doc_id).zip (spans_from first_vector docs)).map
      (fun e => (⟨e.1, UInt32.ofNat e.2.2.1, e.2.2.2⟩ : DocEntry)) = docs := by
  induction docs generalizing first_vector with
  | nil => rfl
  | cons doc docs ih =>
      rw [List.map_cons, spans_from, List.zip_cons_cons, List.map_cons, ih, UInt32.ofNat_toNat]

theorem lookup_split {first_vector : ℕ} {front back : List DocEntry} {doc : DocEntry}
    (hfirst : first_vector < 2 ^ 64)
    (hids : ((front ++ doc :: back).map fun d => d.doc_id).Pairwise (· < ·)) :
    (((front ++ doc :: back).map fun d => d.doc_id).zip
      (spans_from first_vector (front ++ doc :: back))).lookup doc.doc_id =
      some ((first_vector + total_vectors front) % 2 ^ 64, doc.vector_count.toNat,
        doc.pool_factor) := by
  induction front generalizing first_vector with
  | nil =>
      rw [List.nil_append, List.map_cons, spans_from, List.zip_cons_cons, List.lookup_cons_self,
        total_vectors, List.map_nil, List.sum_nil, Nat.add_zero, Nat.mod_eq_of_lt hfirst]
  | cons other front ih =>
      obtain ⟨hhead, htail⟩ := List.pairwise_cons.1 hids
      have hlt : other.doc_id < doc.doc_id := hhead _ (List.mem_map.2
        ⟨doc, List.mem_append_right _ List.mem_cons_self, rfl⟩)
      have hne : (doc.doc_id == other.doc_id) = false :=
        beq_eq_false_iff_ne.2 fun heq => UInt64.lt_irrefl _ (heq ▸ hlt)
      rw [List.cons_append, List.map_cons, spans_from, List.zip_cons_cons, List.lookup_cons, hne]
      dsimp only
      rw [ih (Nat.mod_lt _ (by decide)) htail, Nat.mod_add_mod, total_vectors_cons,
        Nat.add_assoc]

theorem lookup_none {ids : List UInt64} {spans : List Span} {doc_id : UInt64}
    (h : doc_id ∉ ids) : (ids.zip spans).lookup doc_id = none := by
  rw [List.lookup_eq_none_iff]
  intro p hp
  have hmem := (List.of_mem_zip (show (p.1, p.2) ∈ ids.zip spans from hp)).1
  grind

/-- **What an accepted file holds** are documents in order, and a codec of its kind. -/
theorem exists_docs_of_parsed (h : Parsed file_name bytes header table) :
    ∃ docs : List DocEntry, docs.length = header.doc_count ∧ Ordered docs ∧
      table.codec.kind = header.kind ∧ table.doc_ids = docs.map (fun d => d.doc_id) ∧
      table.spans = spans_from 0 docs ∧ header.vector_count = total_vectors docs % 2 ^ 64 := by
  obtain ⟨_, hlen, htable⟩ := h
  obtain ⟨_, _, htotal⟩ := table_end_le hlen
  rw [parse_meta] at htable
  rcases hcodec : parse_codec file_name header (bytes.take header.table_end) with e | codec
  · grind
  rw [hcodec] at htable
  dsimp only at htable
  have hcount : ((bytes.take header.table_end).drop
      (HEADER_LEN + header.params_len)).length / DOC_ENTRY_LEN = header.doc_count := by
    have hsize : ((bytes.take header.table_end).drop (HEADER_LEN + header.params_len)).length =
        header.doc_count * DOC_ENTRY_LEN := by
      rw [List.length_drop, List.length_take, Nat.min_eq_left (by omega), Header.table_end]
      omega
    rw [hsize, Nat.mul_div_cancel _ (by decide)]
  rw [hcount] at htable
  rcases hentries : parse_entries file_name header.doc_count
      ((bytes.take header.table_end).drop (HEADER_LEN + header.params_len)) ⟨[], [], 0⟩
      with e | scan
  · grind
  rw [hentries] at htable
  dsimp only at htable
  split_ifs at htable with hnext
  rw [← Except.ok.inj htable]
  obtain ⟨docs, hlength, hcounts, hids, hscan_ids, hspans, hvectors⟩ :=
    exists_docs_of_parse List.Pairwise.nil hentries
  refine ⟨docs, hlength, ⟨hids, hcounts⟩, kind_of_parse_codec hcodec, hscan_ids, hspans, ?_⟩
  grind

end MultiVector

end Laurus
