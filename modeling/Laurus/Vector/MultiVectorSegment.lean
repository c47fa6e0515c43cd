import Laurus.Vector.Helpers.MultiVectorSegment

/-!
# A multi-vector segment gives back what was written

A segment is written when every document is filled with exactly its rows, and what was under
the name stays when one is not (`written_iff_filled`). On both paths a reader finds the
documents, and each one's rows where they were laid (`open_filled`). Whatever a file holds, a
reader that opens it slices within it (`open_safe`): up to tables so long that the sum of their
counts wraps, and then it does not (`multi_vector_segment_counterexample`).
-/

namespace Laurus

namespace MultiVector

variable {arithmetic : RowArithmetic} {codec : RowCodec} {dimension : ℕ}
variable {docs : List (DocEntry × List SinkCall)} {storage : SegmentFiles} {file_name : String}
variable {zero_copy : Bool}

/-! ## Writing -/

theorem not_any_descent {docs : List DocEntry}
    (h : (docs.map fun d => d.doc_id).Pairwise (· < ·)) :
    ((docs.zip docs.tail).any fun w => w.2.doc_id ≤ w.1.doc_id) = false := by
  induction docs with
  | nil => rfl
  | cons doc docs ih =>
      rcases docs with _ | ⟨next, docs⟩
      · rfl
      grind

/-- The file of documents, with the checksum of their payload. -/
def filled_file (arithmetic : RowArithmetic) (codec : RowCodec) (dimension : ℕ)
    (docs : List (DocEntry × List SinkCall)) : Bytes :=
  file_of codec dimension (docs.map Prod.fst) (payload_bytes arithmetic codec dimension docs)
    (Crc32.checksum (payload_bytes arithmetic codec dimension docs))

/-- **What is written**, when every document is filled. -/
theorem write_segment_to_eq_ok (hpos : 0 < dimension) (hfits : codec.Fits dimension)
    (hdocs : Ordered (docs.map Prod.fst)) {file : Bytes} :
    write_segment_to arithmetic codec dimension docs = .ok file ↔
      (∀ doc ∈ docs, Filled dimension doc) ∧
      file = filled_file arithmetic codec dimension docs := by
  have hparams : (codec.binary_params.any fun params => params.dimension ≠ dimension) = false := by
    rcases hbinary : codec.binary_params with _ | params
    · rfl
    · exact decide_eq_false (not_not.2 (hfits params hbinary))
  have hcounts : ((docs.map Prod.fst).any fun d => d.vector_count = 0) = false := by
    rw [List.any_eq_false]
    exact fun d hd => by simpa using hdocs.2 d hd
  rw [write_segment_to, if_neg (by omega), hparams, not_any_descent hdocs.1, hcounts]
  rcases hfill : fill_documents arithmetic codec dimension ([], 0xFFFFFFFF) docs with e | written
  · refine iff_of_false error_ne_ok fun h => ?_
    have hok := (@fill_documents_eq_ok arithmetic codec dimension hpos docs ([], 0xFFFFFFFF) _).2
      ⟨h.1, rfl⟩
    exact error_ne_ok (hfill.symm.trans hok)
  · obtain ⟨hfilled, rfl⟩ := (fill_documents_eq_ok hpos).1 hfill
    constructor
    · intro h
      exact ⟨hfilled, (Except.ok.inj h).symm⟩
    · rintro ⟨_, rfl⟩
      rfl

/-- **A segment is written when its documents are filled**, and nothing is lost when not. -/
theorem written_iff_filled (hpos : 0 < dimension) (hfits : codec.Fits dimension)
    (hdocs : Ordered (docs.map Prod.fst)) :
    ((write_segment arithmetic storage file_name codec dimension docs).1 = .ok () ↔
      ∀ doc ∈ docs, Filled dimension doc) ∧
    ∀ e, (write_segment arithmetic storage file_name codec dimension docs).1 = .error e →
      (write_segment arithmetic storage file_name codec dimension docs).2 file_name =
        storage file_name := by
  rw [write_segment]
  rcases hwrite : write_segment_to arithmetic codec dimension docs with e | file
  · refine ⟨iff_of_false error_ne_ok fun h => ?_, fun _ _ => ?_⟩
    · have hok := (@write_segment_to_eq_ok arithmetic codec dimension docs hpos hfits hdocs _).2
        ⟨h, rfl⟩
      exact error_ne_ok (hwrite.symm.trans hok)
    · refine Function.update_of_ne (fun heq => ?_) _ _
      have hlength := congrArg String.length heq
      rw [String.length_append] at hlength
      have htmp : ".tmp".length = 4 := rfl
      omega
  · refine ⟨iff_of_true rfl ((write_segment_to_eq_ok hpos hfits hdocs).1 hwrite).1, ?_⟩
    exact fun e he => absurd he.symm error_ne_ok

/-! ## Reading back -/

/-- A reader gives back documents: their entries, each one's rows, none for another, and a
payload that passes its check. -/
structure GivesBack (arithmetic : RowArithmetic) (codec : RowCodec) (dimension : ℕ)
    (docs : List (DocEntry × List SinkCall)) (reader : SegmentReader) : Prop where
  entries : reader.entries = docs.map Prod.fst
  rows : ∀ doc ∈ docs, reader.rows doc.1.doc_id =
    .ok (some ⟨codec, dimension, doc_bytes arithmetic codec dimension doc.2⟩)
  others : ∀ doc_id, (∀ doc ∈ docs, doc.1.doc_id ≠ doc_id) → reader.rows doc_id = .ok none
  verified : reader.verify_payload = .ok ()

theorem payload_bytes_split (front back : List (DocEntry × List SinkCall))
    (doc : DocEntry × List SinkCall) :
    payload_bytes arithmetic codec dimension (front ++ doc :: back) =
      payload_bytes arithmetic codec dimension front ++
        (doc_bytes arithmetic codec dimension doc.2 ++
          payload_bytes arithmetic codec dimension back) := by
  rw [payload_bytes, List.flatMap_append, List.flatMap_cons]
  rfl

/-- What a reader finds of documents. -/
def filled_reader (arithmetic : RowArithmetic) (codec : RowCodec) (dimension : ℕ)
    (docs : List (DocEntry × List SinkCall)) (zero_copy : Bool) : SegmentReader :=
  SegmentReader.of_table (stored_header codec dimension (docs.map Prod.fst))
    (stored_table codec (docs.map Prod.fst)
      (Crc32.checksum (payload_bytes arithmetic codec dimension docs)))
    (stored_header codec dimension (docs.map Prod.fst)).table_end
    (opened_input (filled_file arithmetic codec dimension docs) zero_copy)

theorem rows_of_split (hpos : 0 < dimension) (hfits : codec.Fits dimension)
    {front back : List (DocEntry × List SinkCall)} {doc : DocEntry × List SinkCall}
    (hdocs : Ordered ((front ++ doc :: back).map Prod.fst))
    (hfilled : ∀ d ∈ front ++ doc :: back, Filled dimension d)
    (htotal : total_vectors ((front ++ doc :: back).map Prod.fst) < 2 ^ 64)
    (hlen : (stored_header codec dimension ((front ++ doc :: back).map Prod.fst)).file_len =
      some (filled_file arithmetic codec dimension (front ++ doc :: back)).length) :
    (filled_reader arithmetic codec dimension (front ++ doc :: back) zero_copy).rows
      doc.1.doc_id =
      .ok (some ⟨codec, dimension, doc_bytes arithmetic codec dimension doc.2⟩) := by
  have hvectors : (stored_header codec dimension
      ((front ++ doc :: back).map Prod.fst)).vector_count =
      total_vectors (front.map Prod.fst) +
        (doc.1.vector_count.toNat + total_vectors (back.map Prod.fst)) := by
    refine (Nat.mod_eq_of_lt htotal).trans ?_
    rw [List.map_append, List.map_cons, total_vectors_append, total_vectors_cons]
  rw [List.map_append, List.map_cons, total_vectors_append] at htotal
  have hlookup := @lookup_split 0 (front.map Prod.fst) (back.map Prod.fst) doc.1 (by decide)
    (by rw [List.map_append, List.map_cons] at hdocs; exact hdocs.1)
  rw [← List.map_cons, ← List.map_append, Nat.zero_add, Nat.mod_eq_of_lt (by omega)] at hlookup
  have hfront : (payload_bytes arithmetic codec dimension front).length =
      total_vectors (front.map Prod.fst) * codec.row_bytes dimension :=
    length_payload_bytes hpos fun d hd => hfilled d (List.mem_append_left _ hd)
  have hdoc : Filled dimension doc := hfilled doc (List.mem_append_right _ List.mem_cons_self)
  have hmeta := @length_meta_bytes codec dimension ((front ++ doc :: back).map Prod.fst) hfits
  have hslice : ((filled_file arithmetic codec dimension (front ++ doc :: back)).drop
        ((stored_header codec dimension ((front ++ doc :: back).map Prod.fst)).table_end +
          total_vectors (front.map Prod.fst) * codec.row_bytes dimension)).take
        (doc.1.vector_count.toNat * codec.row_bytes dimension) =
      doc_bytes arithmetic codec dimension doc.2 := by
    rw [filled_file, file_of, List.append_assoc, ← List.drop_drop, List.drop_left' hmeta,
      payload_bytes_split, List.append_assoc, List.drop_left' hfront, List.append_assoc,
      List.take_left' (length_doc_bytes hpos hdoc)]
  have hrows := @rows_eq (filled_file arithmetic codec dimension (front ++ doc :: back)) zero_copy
    (stored_header codec dimension ((front ++ doc :: back).map Prod.fst))
    (stored_table codec ((front ++ doc :: back).map Prod.fst)
      (Crc32.checksum (payload_bytes arithmetic codec dimension (front ++ doc :: back))))
    rfl hlen _ _ _ _ hlookup (by rw [hvectors]; omega)
  refine hrows.trans ?_
  exact congrArg (fun b => Except.ok (some (SegmentReader.FoundRows.mk codec dimension b))) hslice

/-- **What is written is read back**, whether the file is lent or read. -/
theorem open_filled (hpos : 0 < dimension) (hdimension : dimension < 2 ^ 32)
    (hfits : codec.Fits dimension) (hdocs : Ordered (docs.map Prod.fst))
    (hfilled : ∀ doc ∈ docs, Filled dimension doc)
    (hlength : (filled_file arithmetic codec dimension docs).length < 2 ^ 64) :
    SegmentReader.open file_name (filled_file arithmetic codec dimension docs) zero_copy =
      .ok (filled_reader arithmetic codec dimension docs zero_copy) ∧
      GivesBack arithmetic codec dimension docs
        (filled_reader arithmetic codec dimension docs zero_copy) := by
  have hsize : (payload_bytes arithmetic codec dimension docs).length =
      total_vectors (docs.map Prod.fst) * codec.row_bytes dimension :=
    length_payload_bytes hpos hfilled
  have htotal : total_vectors (docs.map Prod.fst) < 2 ^ 64 := by
    have hle := Nat.le_mul_of_pos_right (total_vectors (docs.map Prod.fst))
      (show 0 < codec.row_bytes dimension from row_bytes_pos hpos)
    grind [filled_file, file_of]
  have hpayload : (payload_bytes arithmetic codec dimension docs).length =
      (stored_header codec dimension (docs.map Prod.fst)).payload_size := by
    rw [hsize, Header.payload_size, stored_header, Nat.mod_eq_of_lt htotal]
    rfl
  have hparsed : Parsed file_name (filled_file arithmetic codec dimension docs)
      (stored_header codec dimension (docs.map Prod.fst))
      (stored_table codec (docs.map Prod.fst)
        (Crc32.checksum (payload_bytes arithmetic codec dimension docs))) :=
    parsed_file hpos hdimension hfits hdocs hpayload hlength
  refine ⟨open_of_parsed hparsed, ⟨?_, fun doc hdoc => ?_, fun doc_id hdoc_id => ?_, ?_⟩⟩
  · exact entries_of_spans 0 (docs.map Prod.fst)
  · obtain ⟨front, back, rfl⟩ := List.append_of_mem hdoc
    exact rows_of_split hpos hfits hdocs hfilled htotal hparsed.file_len
  · refine rows_eq_none (lookup_none fun hmem => ?_)
    obtain ⟨entry, hentry, rfl⟩ := List.mem_map.1 hmem
    grind
  · have hmeta := @length_meta_bytes codec dimension (docs.map Prod.fst) hfits
    have hslice : ((filled_file arithmetic codec dimension docs).drop
        (stored_header codec dimension (docs.map Prod.fst)).table_end).take
        (stored_header codec dimension (docs.map Prod.fst)).payload_size =
        payload_bytes arithmetic codec dimension docs := by
      rw [filled_file, file_of, List.append_assoc, List.drop_left' hmeta, ← hpayload,
        List.take_left' rfl]
    rw [filled_reader, verify_payload_eq rfl hparsed.file_len, hslice]
    exact if_neg (not_not.2 rfl)

/-! ## Any file -/

/-- **A reader slices within its file**, whatever the file holds. -/
theorem open_safe (file_name : String) {bytes : Bytes}
    (hlength : bytes.length < HEADER_LEN + DOC_ENTRY_LEN * (2 ^ 32 + 2) + FOOTER_LEN)
    (zero_copy : Bool) :
    (∃ e, SegmentReader.open file_name bytes zero_copy = .error (.error e)) ∨
    ∃ reader, SegmentReader.open file_name bytes zero_copy = .ok reader ∧
      (∀ doc_id, ∃ found, reader.rows doc_id = .ok found) ∧
      (reader.verify_payload = .ok () ∨ ∃ e, reader.verify_payload = .error (.error e)) := by
  rcases open_cases file_name bytes zero_copy with herror | ⟨header, table, hparsed⟩
  · exact Or.inl herror
  refine Or.inr ⟨_, open_of_parsed hparsed, fun doc_id => ?_, ?_⟩
  · obtain ⟨docs, hcount, hdocs, hkind, hids, hspans, hvectors⟩ := exists_docs_of_parsed hparsed
    rcases hlookup : (table.doc_ids.zip table.spans).lookup doc_id with _ | ⟨first, count, factor⟩
    · exact ⟨none, rows_eq_none hlookup⟩
    · obtain ⟨_, _, hfile⟩ := table_end_le hparsed.file_len
      have hfew : docs.length ≤ 2 ^ 32 + 1 := by
        grind [DOC_ENTRY_LEN, Header.table_end]
      have htotal := total_vectors_lt hfew
      obtain ⟨before, after, hsplit, _⟩ := List.lookup_eq_some_iff.1 hlookup
      have hmem : (first, count, factor) ∈ table.spans := (List.of_mem_zip (hsplit ▸
        List.mem_append_right before (List.mem_cons_self (l := after)))).2
      rw [hspans] at hmem
      obtain ⟨_, hstop⟩ := bounds_of_mem_spans (by rw [Nat.zero_add]; exact htotal) _ hmem
      rw [Nat.zero_add] at hstop
      rw [Nat.mod_eq_of_lt htotal] at hvectors
      exact ⟨_, rows_eq hkind hparsed.file_len hlookup (by rw [hvectors]; exact hstop)⟩
  grind [exists_docs_of_parsed, verify_payload_eq, Parsed.file_len]

/-- **A multi-vector segment gives back what was written**, of any codec and dimension that its
header holds: it is written when its documents are filled, and else the name keeps what it had;
both paths find it; and whatever a file holds, a reader stays within it, where the table is not
so long that the sum of its counts could wrap. -/
theorem multi_vector_segment_spec (arithmetic : RowArithmetic) (codec : RowCodec)
    (dimension : ℕ) (docs : List (DocEntry × List SinkCall)) (storage : SegmentFiles)
    (file_name : String) (hpos : 0 < dimension) (hdimension : dimension < 2 ^ 32)
    (hfits : codec.Fits dimension) (hdocs : Ordered (docs.map Prod.fst)) :
    ((write_segment arithmetic storage file_name codec dimension docs).1 = .ok () ↔
      ∀ doc ∈ docs, Filled dimension doc) ∧
    (∀ e, (write_segment arithmetic storage file_name codec dimension docs).1 = .error e →
      (write_segment arithmetic storage file_name codec dimension docs).2 file_name =
        storage file_name) ∧
    ((write_segment arithmetic storage file_name codec dimension docs).1 = .ok () →
      ∃ file, (write_segment arithmetic storage file_name codec dimension docs).2 file_name =
        some file ∧
      (file.length < 2 ^ 64 → ∀ zero_copy, ∃ reader,
        SegmentReader.open file_name file zero_copy = .ok reader ∧
          GivesBack arithmetic codec dimension docs reader)) ∧
    ∀ bytes : Bytes,
      bytes.length < HEADER_LEN + DOC_ENTRY_LEN * (2 ^ 32 + 2) + FOOTER_LEN → ∀ zero_copy,
      (∃ e, SegmentReader.open file_name bytes zero_copy = .error (.error e)) ∨
      ∃ reader, SegmentReader.open file_name bytes zero_copy = .ok reader ∧
        (∀ doc_id, ∃ found, reader.rows doc_id = .ok found) ∧
        (reader.verify_payload = .ok () ∨ ∃ e, reader.verify_payload = .error (.error e)) := by
  obtain ⟨hwritten, hkept⟩ := @written_iff_filled arithmetic codec dimension docs storage
    file_name hpos hfits hdocs
  refine ⟨hwritten, hkept, fun hok => ?_, fun bytes hlength zero_copy =>
    open_safe file_name hlength zero_copy⟩
  have hfilled := hwritten.1 hok
  have hwrite := (@write_segment_to_eq_ok arithmetic codec dimension docs hpos hfits hdocs _).2
    ⟨hfilled, rfl⟩
  refine ⟨filled_file arithmetic codec dimension docs, ?_, fun hlength zero_copy => ?_⟩
  · rw [write_segment, hwrite]
    exact Function.update_self _ _ _
  · exact ⟨_, open_filled hpos hdimension hfits hdocs hfilled hlength⟩

theorem f32_fits (dimension : ℕ) : RowCodec.F32.Fits dimension :=
  fun _ h => absurd h (Option.some_ne_none _).symm

/-- A document of two rows, one written and one copied. -/
theorem multi_vector_segment_spec_two_rows :
    ∃ file reader, SegmentReader.open "segment.mv" file false = .ok reader ∧
      reader.entries = [⟨5, 2, 0⟩] ∧
      reader.rows 5 = .ok (some ⟨.F32, 1, [1, 0, 0, 0, 2, 0, 0, 0]⟩) ∧
      reader.rows 6 = .ok none := by
  have hids : Ordered [⟨5, 2, 0⟩] :=
    ⟨List.pairwise_singleton _ _, fun d hd => by rw [List.mem_singleton.1 hd]; decide⟩
  have hspec := multi_vector_segment_spec ⟨fun _ => 0, fun _ => 0, fun _ _ => 0,
    fun _ _ => false, fun _ => 0, fun _ _ => 0, fun _ _ _ => 0⟩ .F32 1
    [(⟨5, 2, 0⟩, [.write [1], .append ⟨.F32, 1, [2, 0, 0, 0], by decide, rfl, f32_fits 1⟩])]
    (fun _ => none) "segment.mv" (by decide) (by decide) (f32_fits 1) hids
  obtain ⟨file, hfile, hread⟩ := hspec.2.2.1 (by decide +kernel)
  have hlength : Option.map List.length (some file) = some 112 := by
    rw [← hfile]
    decide +kernel
  obtain ⟨reader, hopen, hback⟩ := hread (by rw [Option.some.inj hlength]; decide) false
  exact ⟨file, reader, hopen, hback.entries, hback.rows _ List.mem_cons_self,
    hback.others 6 fun doc hdoc => by rw [List.mem_singleton.1 hdoc]; decide⟩

/-! ## Where it does not -/

/-- Documents whose counts come to more than a `u64`, when there are enough of them. -/
def wrapped_docs (n : ℕ) : List DocEntry :=
  ((List.range n).map fun i => ⟨UInt64.ofNat i, 4294967295, 0⟩) ++ [⟨UInt64.ofNat n, 2, 0⟩]

theorem wrapped_ids (n : ℕ) : (wrapped_docs n).map (fun d => d.doc_id) =
    (List.range (n + 1)).map UInt64.ofNat := by
  rw [wrapped_docs, List.map_append, List.map_map, List.range_succ, List.map_append]
  rfl

theorem wrapped_ordered {n : ℕ} (hn : n < 2 ^ 64) : Ordered (wrapped_docs n) := by
  refine ⟨?_, fun d hd => ?_⟩
  · rw [wrapped_ids, List.pairwise_map]
    refine (List.pairwise_lt_range (n := n + 1)).imp_of_mem fun {a b} ha hb hlt => ?_
    grind [UInt64.lt_iff_toNat_lt, UInt64.toNat_ofNat_of_lt']
  · rcases List.mem_append.1 hd with hd | hd
    · grind
    grind

theorem total_wrapped (n : ℕ) : total_vectors (wrapped_docs n) = n * 4294967295 + 2 := by
  have hrange : total_vectors ((List.range n).map fun i =>
      (⟨UInt64.ofNat i, 4294967295, 0⟩ : DocEntry)) = n * 4294967295 := by
    induction n with
    | zero => rfl
    | succ n ih =>
        rw [List.range_succ, List.map_append, total_vectors_append, ih, Nat.succ_mul]
        rfl
  rw [wrapped_docs, total_vectors_append, hrange]
  rfl

/-- The second document is found far behind the one row that such a file has. -/
theorem lookup_wrapped {n : ℕ} (hn : 2 ≤ n) (hlt : n < 2 ^ 64) :
    (((wrapped_docs n).map fun d => d.doc_id).zip (spans_from 0 (wrapped_docs n))).lookup 1 =
      some (4294967295, 4294967295, 0) := by
  obtain ⟨m, rfl⟩ : ∃ m, n = m + 1 + 1 := ⟨n - 2, by omega⟩
  have hids := (wrapped_ordered hlt).1
  have hsplit : ∃ back, wrapped_docs (m + 1 + 1) =
      [⟨0, 4294967295, 0⟩] ++ ⟨1, 4294967295, 0⟩ :: back := by
    simp [wrapped_docs, List.range_succ_eq_map]
  obtain ⟨back, hback⟩ := hsplit
  rw [hback] at hids ⊢
  exact lookup_split (by decide) hids

theorem wrapped_rows {n : ℕ} (hn : n = 2 ^ 32 + 1) :
    ∃ reader, SegmentReader.open "segment.mv"
        (file_of .F32 1 (wrapped_docs n) [0, 0, 0, 0] 0) true = .ok reader ∧
      reader.rows 1 = .error (.panicked "slice index out of range") := by
  have htotal := total_wrapped n
  have hcount : (wrapped_docs n).length = n + 1 := by
    rw [wrapped_docs, List.length_append, List.length_map, List.length_range]
    rfl
  have hvectors : (stored_header .F32 1 (wrapped_docs n)).vector_count = 1 := by
    refine (congrArg (· % 2 ^ 64) htotal).trans ?_
    omega
  have hend : (stored_header .F32 1 (wrapped_docs n)).table_end = (n + 1) * 24 + 64 := by
    rw [Header.table_end, stored_header, hcount]
    rfl
  have hpayload : ([0, 0, 0, 0] : Bytes).length =
      (stored_header .F32 1 (wrapped_docs n)).payload_size := by
    rw [Header.payload_size, hvectors]
    rfl
  have hlength : (file_of .F32 1 (wrapped_docs n) [0, 0, 0, 0] 0).length =
      (n + 1) * 24 + 64 + 4 + 16 := by
    rw [file_of, List.length_append, List.length_append, length_meta_bytes (f32_fits 1), hend,
      length_footer_bytes]
    rfl
  have hparsed := @parsed_file .F32 1 "segment.mv" (wrapped_docs n) [0, 0, 0, 0] 0 (by decide)
    (by decide) (f32_fits 1) (wrapped_ordered (by omega)) hpayload (by omega)
  refine ⟨_, open_of_parsed hparsed, ?_⟩
  have hlookup : ((stored_table .F32 (wrapped_docs n) 0).doc_ids.zip
      (stored_table .F32 (wrapped_docs n) 0).spans).lookup 1 =
      some (4294967295, 4294967295, 0) := lookup_wrapped (by omega) (by omega)
  rw [SegmentReader.rows]
  simp only [SegmentReader.of_table, hlookup, hend]
  have hrow : (stored_table .F32 (wrapped_docs n) 0).codec.kind.row_bytes
      (stored_header .F32 1 (wrapped_docs n)).dimension = 4 := rfl
  simp only [hrow, SegmentInput.as_slice, opened_input, if_true, List.drop_zero]
  rw [slice, if_neg (by rw [hlength]; omega)]
  rfl

/-- A dimension that a `u32` does not hold is written and cannot be opened; and a table of
`2 ^ 32 + 2` documents whose counts wrap is opened, and its second document panics. -/
theorem multi_vector_segment_counterexample :
    (∃ file, write_segment ⟨fun _ => 0, fun _ => 0, fun _ _ => 0, fun _ _ => false, fun _ => 0,
        fun _ _ => 0, fun _ _ _ => 0⟩ (fun _ => none) "segment.mv" .F32 4294967296 [] =
        (.ok (), Function.update (Function.update (fun _ => none) "segment.mv.tmp" none)
          "segment.mv" (some file)) ∧
      SegmentReader.open "segment.mv" file true =
        .error (.error (LaurusError.index "multi-vector segment declares dimension 0")) ∧
      SegmentReader.open "segment.mv" file false =
        .error (.error (LaurusError.index "multi-vector segment declares dimension 0"))) ∧
    ∃ reader, SegmentReader.open "segment.mv"
        (file_of .F32 1 (wrapped_docs 4294967297) [0, 0, 0, 0] 0) true = .ok reader ∧
      reader.rows 1 = .error (.panicked "slice index out of range") := by
  refine ⟨⟨_, rfl, ?_, ?_⟩, wrapped_rows (by decide)⟩
  all_goals
    rw [open_eq (by decide), read_parts]
    rfl

end MultiVector

end Laurus
