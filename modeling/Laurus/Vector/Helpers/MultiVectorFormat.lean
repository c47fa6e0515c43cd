import Laurus.Vector.Helpers.MultiVector

/-!
# The header and the table of a multi-vector segment

What is written of them is read back (`decode_encode`, `parse_entries_table`). Whether the
file is lent as a slice or read, `open` comes to the same (`open_eq`); what it returns has
a file of exactly the length its header says (`Parsed`), and documents in order
(`exists_docs_of_parse`), whose spans lie one after another (`bounds_of_mem_spans`).
-/

namespace Laurus

namespace MultiVector

variable {arithmetic : RowArithmetic} {codec : RowCodec} {dimension : ℕ}

/-! ## Fields -/

theorem number_at_eq {bytes : Bytes} {offset width : ℕ} (front mid rest : Bytes)
    (h : bytes = front ++ (mid ++ rest)) (hfront : front.length = offset)
    (hmid : mid.length = width) : number_at bytes offset width = Bytes.toNatLE mid := by
  rw [number_at, h, List.drop_left' hfront, List.take_left' hmid]

theorem number_at_ofNatLE {bytes : Bytes} {offset width v : ℕ} (front rest : Bytes)
    (h : bytes = front ++ (Bytes.ofNatLE width v ++ rest)) (hfront : front.length = offset)
    (hv : v < 256 ^ width) : number_at bytes offset width = v := by
  grind [number_at_eq, Bytes.length_ofNatLE, Bytes.toNatLE_ofNatLE]

theorem length_encode (header : Header) : header.encode.length = HEADER_LEN := by
  rfl

theorem from_tag_tag (kind : MultiVectorStorage) :
    MultiVectorStorage.from_tag kind.tag = some kind := by
  rcases kind <;> rfl

/-- **A header is read back.** -/
theorem decode_encode {header : Header} (hpos : 0 < header.dimension)
    (hdimension : header.dimension < 2 ^ 32) (hdocs : header.doc_count < 2 ^ 64)
    (hvectors : header.vector_count < 2 ^ 64) :
    Header.decode header.encode = .ok header := by
  have hmagic : header.encode.take 4 = MAGIC := by
    simp only [Header.encode, List.append_assoc]
    exact List.take_left' rfl
  have hversion : number_at header.encode 4 2 = VERSION :=
    number_at_ofNatLE MAGIC _ (by simp only [Header.encode, List.append_assoc]; rfl) rfl
      (by decide)
  have htag : header.encode.getD 6 0 = header.kind.tag := by
    rfl
  have hdim : number_at header.encode 8 4 = header.dimension :=
    number_at_ofNatLE (MAGIC ++ Bytes.ofNatLE 2 VERSION ++ [header.kind.tag, 0]) _
      (by simp only [Header.encode, List.append_assoc]; rfl) rfl hdimension
  have hdoc : number_at header.encode 16 8 = header.doc_count :=
    number_at_ofNatLE (MAGIC ++ Bytes.ofNatLE 2 VERSION ++ [header.kind.tag, 0] ++
      Bytes.ofNatLE 4 header.dimension ++ List.replicate 4 0) _
      (by simp only [Header.encode, List.append_assoc]; rfl)
      (by simp only [List.length_append, Bytes.length_ofNatLE]; rfl) hdocs
  have hvector : number_at header.encode 24 8 = header.vector_count :=
    number_at_ofNatLE (MAGIC ++ Bytes.ofNatLE 2 VERSION ++ [header.kind.tag, 0] ++
      Bytes.ofNatLE 4 header.dimension ++ List.replicate 4 0 ++
      Bytes.ofNatLE 8 header.doc_count) _
      (by simp only [Header.encode, List.append_assoc]; rfl)
      (by simp only [List.length_append, Bytes.length_ofNatLE]; rfl) hvectors
  rw [Header.decode]
  simp only [hmagic, hversion, htag, hdim, hdoc, hvector, from_tag_tag, ne_eq, not_true_eq_false,
    if_false, Nat.ne_of_gt hpos]

/-! ## The table -/

/-- Where the documents' vectors start. -/
def spans_from : ℕ → List DocEntry → List Span
  | _, [] => []
  | first_vector, doc :: docs =>
    (first_vector, doc.vector_count.toNat, doc.pool_factor) ::
      spans_from ((first_vector + doc.vector_count.toNat) % 2 ^ 64) docs

/-- How many vectors documents have. -/
def total_vectors (docs : List DocEntry) : ℕ := (docs.map fun d => d.vector_count.toNat).sum

/-- Documents in order, each with a vector. -/
def Ordered (docs : List DocEntry) : Prop :=
  (docs.map fun d => d.doc_id).Pairwise (· < ·) ∧ ∀ d ∈ docs, d.vector_count ≠ 0

/-- An entry of the table. -/
def entry_bytes (first_vector : ℕ) (doc : DocEntry) : Bytes :=
  Bytes.ofNatLE 8 doc.doc_id.toNat ++ Bytes.ofNatLE 8 first_vector ++
    Bytes.ofNatLE 4 doc.vector_count.toNat ++ Bytes.ofNatLE 4 doc.pool_factor.toNat

theorem length_entry_bytes (first_vector : ℕ) (doc : DocEntry) :
    (entry_bytes first_vector doc).length = DOC_ENTRY_LEN := by
  rfl

theorem table_bytes_cons (first_vector : ℕ) (doc : DocEntry) (docs : List DocEntry) :
    table_bytes first_vector (doc :: docs) = entry_bytes first_vector doc ++
      table_bytes ((first_vector + doc.vector_count.toNat) % 2 ^ 64) docs := rfl

theorem length_table_bytes (first_vector : ℕ) (docs : List DocEntry) :
    (table_bytes first_vector docs).length = docs.length * DOC_ENTRY_LEN := by
  induction docs generalizing first_vector with
  | nil => exact (Nat.zero_mul _).symm
  | cons doc docs ih =>
      rw [table_bytes_cons, List.length_append, length_entry_bytes, ih, List.length_cons,
        Nat.succ_mul, Nat.add_comm]

/-- **A table is read back**, after what is read before it. -/
theorem parse_entries_table {file_name : String} {docs : List DocEntry} {scan : TableScan}
    (hfirst : scan.next_vector < 2 ^ 64)
    (hids : (scan.doc_ids ++ docs.map fun d => d.doc_id).Pairwise (· < ·))
    (hcounts : ∀ d ∈ docs, d.vector_count ≠ 0) :
    parse_entries file_name docs.length (table_bytes scan.next_vector docs) scan =
      .ok ⟨scan.doc_ids ++ docs.map (fun d => d.doc_id),
        scan.spans ++ spans_from scan.next_vector docs,
        (scan.next_vector + total_vectors docs) % 2 ^ 64⟩ := by
  induction docs generalizing scan with
  | nil =>
      rw [List.length_nil, parse_entries, List.map_nil, List.append_nil, spans_from,
        List.append_nil, total_vectors, List.map_nil, List.sum_nil, Nat.add_zero,
        Nat.mod_eq_of_lt hfirst]
  | cons doc docs ih =>
      have hentry := table_bytes_cons scan.next_vector doc docs
      have hid : number_at (table_bytes scan.next_vector (doc :: docs)) 0 8 = doc.doc_id.toNat :=
        number_at_ofNatLE [] _ (by
          rfl) rfl doc.doc_id.toNat_lt
      have hfirsts : number_at (table_bytes scan.next_vector (doc :: docs)) 8 8 =
          scan.next_vector :=
        number_at_ofNatLE (Bytes.ofNatLE 8 doc.doc_id.toNat) _ (by
          rfl) (Bytes.length_ofNatLE _ _) hfirst
      have hcount : number_at (table_bytes scan.next_vector (doc :: docs)) 16 4 =
          doc.vector_count.toNat :=
        number_at_ofNatLE (Bytes.ofNatLE 8 doc.doc_id.toNat ++
          Bytes.ofNatLE 8 scan.next_vector) _ (by
          rfl) (by simp) doc.vector_count.toNat_lt
      have hpool : number_at (table_bytes scan.next_vector (doc :: docs)) 20 4 =
          doc.pool_factor.toNat :=
        number_at_ofNatLE (Bytes.ofNatLE 8 doc.doc_id.toNat ++
          Bytes.ofNatLE 8 scan.next_vector ++ Bytes.ofNatLE 4 doc.vector_count.toNat) _ (by
          rfl) (by simp) doc.pool_factor.toNat_lt
      have hdrop : (table_bytes scan.next_vector (doc :: docs)).drop DOC_ENTRY_LEN =
          table_bytes ((scan.next_vector + doc.vector_count.toNat) % 2 ^ 64) docs := by
        rw [hentry, List.drop_left' (length_entry_bytes _ _)]
      have hlast : (scan.doc_ids.getLast?.any fun last => doc.doc_id ≤ last) = false := by
        rcases hlast : scan.doc_ids.getLast? with _ | last
        · rfl
        · have hlt := (List.pairwise_append.1 hids).2.2 last (List.mem_of_getLast? hlast)
            doc.doc_id List.mem_cons_self
          grind
      have hne : doc.vector_count.toNat ≠ 0 := fun h =>
        hcounts doc List.mem_cons_self (UInt32.toNat_inj.1 h)
      rw [List.length_cons, parse_entries]
      simp only [hid, hfirsts, hcount, hpool, hdrop, UInt64.ofNat_toNat, UInt32.ofNat_toNat, hlast,
        Bool.false_eq_true, if_false, ne_eq, not_true_eq_false, hne, or_self]
      refine (@ih ⟨scan.doc_ids ++ [doc.doc_id],
        scan.spans ++ [(scan.next_vector, doc.vector_count.toNat, doc.pool_factor)],
        (scan.next_vector + doc.vector_count.toNat) % 2 ^ 64⟩ (Nat.mod_lt _ (by decide)) ?_
        fun d hd => hcounts d (List.mem_cons_of_mem _ hd)).trans ?_
      · grind
      simp only [List.append_assoc, List.map_cons, List.singleton_append, spans_from,
        total_vectors, List.sum_cons, Nat.mod_add_mod, Nat.add_assoc]

/-! ## Opening -/

theorem check_len_eq_ok {file_name : String} {header : Header} {file_len : ℕ} {u : Unit} :
    check_len file_name header file_len = .ok u ↔ header.file_len = some file_len := by
  grind [check_len]

theorem checked_add_u64_eq_some {a b c : ℕ} :
    checked_add_u64 a b = some c ↔ c < 2 ^ 64 ∧ c = a + b := by
  rw [checked_add_u64]
  grind

theorem checked_mul_u64_eq_some {a b c : ℕ} :
    checked_mul_u64 a b = some c ↔ c < 2 ^ 64 ∧ c = a * b := by
  rw [checked_mul_u64]
  grind

/-- Where the payload starts, as a number. -/
def Header.table_end (header : Header) : ℕ :=
  header.doc_count * DOC_ENTRY_LEN + HEADER_LEN + header.params_len

/-- How long the payload is, as a number. -/
def Header.payload_size (header : Header) : ℕ :=
  header.vector_count * header.kind.row_bytes header.dimension

theorem payload_offset_eq_some {header : Header} {n : ℕ} :
    header.payload_offset = some n ↔ n < 2 ^ 64 ∧ n = header.table_end := by
  simp only [Header.payload_offset, Option.bind_eq_bind, Option.bind_eq_some_iff,
    checked_add_u64_eq_some, checked_mul_u64_eq_some, Header.table_end]
  constructor
  · omega
  · rintro ⟨hlt, rfl⟩
    exact ⟨_, ⟨by omega, rfl⟩, _, ⟨by omega, rfl⟩, hlt, rfl⟩

/-- **What the length of a file says of its counts.** -/
theorem file_len_eq_some {header : Header} {n : ℕ} : header.file_len = some n ↔
    n < 2 ^ 64 ∧ n = header.table_end + header.payload_size + FOOTER_LEN := by
  simp only [Header.file_len, Header.payload_len, Option.bind_eq_bind, Option.bind_eq_some_iff,
    payload_offset_eq_some, checked_add_u64_eq_some, checked_mul_u64_eq_some, Header.payload_size]
  constructor
  · omega
  · rintro ⟨hlt, rfl⟩
    exact ⟨_, ⟨by omega, rfl⟩, _, ⟨by omega, rfl⟩, _, ⟨by omega, rfl⟩, hlt, rfl⟩

variable {file_name : String} {bytes : Bytes} {zero_copy : Bool}

/-- The input of an opened segment. -/
def opened_input (bytes : Bytes) (zero_copy : Bool) : SegmentInput :=
  ⟨bytes, zero_copy, if zero_copy then 0 else bytes.length⟩

theorem slice_eq {start stop : ℕ} (h : start ≤ stop ∧ stop ≤ bytes.length) :
    slice bytes start stop = .ok ((bytes.take stop).drop start) := if_pos h

theorem read_exact_eq {position n : ℕ} (h : position + n ≤ bytes.length) :
    SegmentInput.read_exact ⟨bytes, zero_copy, position⟩ n =
      .ok ((bytes.drop position).take n, ⟨bytes, zero_copy, position + n⟩) := if_pos h

theorem table_end_le {header : Header} (h : header.file_len = some bytes.length) :
    header.payload_offset = some header.table_end ∧ HEADER_LEN ≤ header.table_end ∧
      header.table_end + header.payload_size + FOOTER_LEN = bytes.length := by
  grind [file_len_eq_some, payload_offset_eq_some, Header.table_end]

/-- The header and the table of a file. -/
def read_parts (file_name : String) (bytes : Bytes) : Except LaurusError (Header × DocTable) := do
  let header ← Header.decode (bytes.take HEADER_LEN)
  check_len file_name header bytes.length
  let table ← parse_meta file_name header (bytes.take header.table_end)
    (bytes.drop (bytes.length - FOOTER_LEN))
  return (header, table)

theorem open_mapped_eq (hlength : HEADER_LEN + FOOTER_LEN ≤ bytes.length) :
    SegmentReader.open_mapped file_name ⟨bytes, true, 0⟩ bytes bytes.length =
      (SegmentReader.lift (read_parts file_name bytes)).map fun parts =>
        SegmentReader.of_table parts.1 parts.2 parts.1.table_end (opened_input bytes true) := by
  rw [SegmentReader.open_mapped, read_parts, slice_eq ⟨Nat.zero_le _, by omega⟩]
  simp only [List.drop_zero, bind, Except.bind]
  rcases Header.decode (bytes.take HEADER_LEN) with e | header
  · rfl
  dsimp only [SegmentReader.lift]
  rcases hcheck : check_len file_name header bytes.length with e | u
  · rfl
  obtain ⟨hoffset, hstart, htotal⟩ := table_end_le (check_len_eq_ok.1 hcheck)
  dsimp only
  rw [hoffset]
  dsimp only
  rw [slice_eq ⟨Nat.sub_le _ _, Nat.le_refl _⟩, slice_eq ⟨Nat.zero_le _, by omega⟩,
    List.take_length, List.drop_zero]
  dsimp only
  rcases parse_meta file_name header (bytes.take header.table_end)
    (bytes.drop (bytes.length - FOOTER_LEN)) with e | table
  · rfl
  · rfl

theorem open_streamed_eq (hlength : HEADER_LEN + FOOTER_LEN ≤ bytes.length) :
    SegmentReader.open_streamed file_name ⟨bytes, false, 0⟩ bytes.length =
      (SegmentReader.lift (read_parts file_name bytes)).map fun parts =>
        SegmentReader.of_table parts.1 parts.2 parts.1.table_end (opened_input bytes false) := by
  rw [SegmentReader.open_streamed, read_parts, read_exact_eq (by omega)]
  simp only [List.drop_zero, bind, Except.bind]
  rcases Header.decode (bytes.take HEADER_LEN) with e | header
  · rfl
  dsimp only [SegmentReader.lift]
  rcases hcheck : check_len file_name header bytes.length with e | u
  · rfl
  obtain ⟨hoffset, hstart, htotal⟩ := table_end_le (check_len_eq_ok.1 hcheck)
  have hmeta : bytes.take HEADER_LEN ++
      (bytes.drop HEADER_LEN).take (header.table_end - HEADER_LEN) =
        bytes.take header.table_end := by
    have hsplit : header.table_end = HEADER_LEN + (header.table_end - HEADER_LEN) := by omega
    grind
  have hfooter : (bytes.drop (bytes.length - FOOTER_LEN)).take FOOTER_LEN =
      bytes.drop (bytes.length - FOOTER_LEN) :=
    List.take_of_length_le (by rw [List.length_drop]; omega)
  dsimp only
  rw [hoffset]
  dsimp only
  rw [Nat.zero_add, read_exact_eq (by omega)]
  dsimp only [SegmentInput.seek]
  -- the second read ends where the file does
  rw [read_exact_eq (by omega), hmeta, hfooter, Nat.sub_add_cancel (by omega)]
  dsimp only
  rcases parse_meta file_name header (bytes.take header.table_end)
    (bytes.drop (bytes.length - FOOTER_LEN)) with e | table
  · rfl
  · rfl

/-- **Whether it is lent or read, a file is opened alike.** -/
theorem open_eq (hlength : HEADER_LEN + FOOTER_LEN ≤ bytes.length) :
    SegmentReader.open file_name bytes zero_copy =
      (SegmentReader.lift (read_parts file_name bytes)).map fun parts =>
        SegmentReader.of_table parts.1 parts.2 parts.1.table_end
          (opened_input bytes zero_copy) := by
  rw [SegmentReader.open, if_neg (Nat.not_lt.2 hlength)]
  rcases zero_copy with _ | _
  · exact open_streamed_eq hlength
  · exact open_mapped_eq hlength

/-- What a file that is opened holds. -/
structure Parsed (file_name : String) (bytes : Bytes) (header : Header) (table : DocTable) :
    Prop where
  header_eq : Header.decode (bytes.take HEADER_LEN) = .ok header
  file_len : header.file_len = some bytes.length
  table_eq : parse_meta file_name header (bytes.take header.table_end)
    (bytes.drop (bytes.length - FOOTER_LEN)) = .ok table

variable {header : Header} {table : DocTable}

theorem read_parts_eq_ok :
    read_parts file_name bytes = .ok (header, table) ↔ Parsed file_name bytes header table := by
  rw [read_parts]
  constructor
  · intro h
    rcases hheader : Header.decode (bytes.take HEADER_LEN) with e | found
    · rw [hheader] at h
      exact absurd h error_ne_ok
    rw [hheader] at h
    rcases hcheck : check_len file_name found bytes.length with e | u
    · simp only [bind, Except.bind, hcheck] at h
      exact absurd h error_ne_ok
    rcases htable : parse_meta file_name found (bytes.take found.table_end)
        (bytes.drop (bytes.length - FOOTER_LEN)) with e | t
    · simp only [bind, Except.bind, hcheck, htable] at h
      exact absurd h error_ne_ok
    · simp only [bind, Except.bind, hcheck, htable] at h
      obtain ⟨rfl, rfl⟩ := Prod.mk.inj (Except.ok.inj h)
      exact ⟨hheader, check_len_eq_ok.1 hcheck, htable⟩
  · rintro ⟨hheader, hlen, htable⟩
    have hcheck : check_len file_name header bytes.length = .ok () := check_len_eq_ok.2 hlen
    simp only [bind, Except.bind, hheader, hcheck, htable]
    rfl

theorem length_of_parsed (h : Parsed file_name bytes header table) :
    HEADER_LEN + FOOTER_LEN ≤ bytes.length := by
  obtain ⟨_, hstart, htotal⟩ := table_end_le h.file_len
  omega

/-- **A file that holds a table is opened** to it. -/
theorem open_of_parsed (h : Parsed file_name bytes header table) :
    SegmentReader.open file_name bytes zero_copy = .ok
      (SegmentReader.of_table header table header.table_end (opened_input bytes zero_copy)) := by
  rw [open_eq (length_of_parsed h), read_parts_eq_ok.2 h]
  rfl

theorem open_cases (file_name : String) (bytes : Bytes) (zero_copy : Bool) :
    (∃ e, SegmentReader.open file_name bytes zero_copy = .error (.error e)) ∨
    ∃ header table, Parsed file_name bytes header table := by
  by_cases hlength : bytes.length < HEADER_LEN + FOOTER_LEN
  · exact Or.inl ⟨_, if_pos hlength⟩
  rcases hparts : read_parts file_name bytes with e | parts
  · refine Or.inl ⟨e, ?_⟩
    rw [open_eq (Nat.not_lt.1 hlength), hparts]
    rfl
  grind [read_parts_eq_ok]

/-! ## What a table that is accepted says -/

theorem number_at_lt (bytes : Bytes) (offset width : ℕ) :
    number_at bytes offset width < 256 ^ width := by
  have hlt := Bytes.toNatLE_lt ((bytes.drop offset).take width)
  refine hlt.trans_le (Nat.pow_le_pow_right (by decide) ?_)
  rw [List.length_take]
  omega

/-- **A table that is accepted is one of documents in order.** -/
theorem exists_docs_of_parse {count : ℕ} {bytes : Bytes} {scan scan' : TableScan}
    (hids : scan.doc_ids.Pairwise (· < ·))
    (h : parse_entries file_name count bytes scan = .ok scan') :
    ∃ docs : List DocEntry, docs.length = count ∧ (∀ d ∈ docs, d.vector_count ≠ 0) ∧
      (scan.doc_ids ++ docs.map fun d => d.doc_id).Pairwise (· < ·) ∧
      scan'.doc_ids = scan.doc_ids ++ docs.map (fun d => d.doc_id) ∧
      scan'.spans = scan.spans ++ spans_from scan.next_vector docs ∧
      (scan.next_vector < 2 ^ 64 →
        scan'.next_vector = (scan.next_vector + total_vectors docs) % 2 ^ 64) := by
  induction count generalizing bytes scan with
  | zero =>
      obtain rfl := Except.ok.inj h
      refine ⟨[], rfl, fun d hd => absurd hd List.not_mem_nil, ?_, ?_, ?_, fun hlt => ?_⟩
      · grind
      · rw [List.map_nil, List.append_nil]
      · rw [spans_from, List.append_nil]
      · rw [total_vectors, List.map_nil, List.sum_nil, Nat.add_zero, Nat.mod_eq_of_lt hlt]
  | succ count ih =>
      rw [parse_entries] at h
      split_ifs at h with hlast hspan
      rw [not_or, not_not] at hspan
      obtain ⟨hfirst, hvectors⟩ := hspan
      have hlt32 : number_at bytes 16 4 < 2 ^ 32 := number_at_lt bytes 16 4
      obtain ⟨doc, hdoc⟩ : ∃ doc : DocEntry, doc = ⟨UInt64.ofNat (number_at bytes 0 8),
        UInt32.ofNat (number_at bytes 16 4), UInt32.ofNat (number_at bytes 20 4)⟩ := ⟨_, rfl⟩
      have hcount : doc.vector_count.toNat = number_at bytes 16 4 := by
        rw [hdoc]
        exact UInt32.toNat_ofNat_of_lt' hlt32
      have hid : UInt64.ofNat (number_at bytes 0 8) = doc.doc_id := by rw [hdoc]
      have hpool : UInt32.ofNat (number_at bytes 20 4) = doc.pool_factor := by rw [hdoc]
      rw [hfirst, ← hcount, hid, hpool] at h
      have hpairwise : (scan.doc_ids ++ [doc.doc_id]).Pairwise (· < ·) := by
        rcases List.eq_nil_or_concat' scan.doc_ids with hnil | ⟨ids, last, hconcat⟩
        · grind
        grind
      obtain ⟨docs, hlength, hcounts, hall, hids', hspans, hnext⟩ := ih hpairwise h
      refine ⟨doc :: docs, by rw [List.length_cons, hlength], ?_, ?_, ?_, ?_, fun hlt => ?_⟩
      · rintro d hd hzero
        rcases List.mem_cons.1 hd with rfl | hd
        · rw [hzero] at hcount
          exact hvectors hcount.symm
        · exact hcounts d hd hzero
      · grind
      · grind
      · rw [hspans, List.append_assoc]
        rfl
      grind [total_vectors]

theorem total_vectors_cons (doc : DocEntry) (docs : List DocEntry) :
    total_vectors (doc :: docs) = doc.vector_count.toNat + total_vectors docs := rfl

theorem total_vectors_lt {docs : List DocEntry} (h : docs.length ≤ 2 ^ 32 + 1) :
    total_vectors docs < 2 ^ 64 := by
  have hle : total_vectors docs ≤ docs.length * (2 ^ 32 - 1) := by
    clear h
    induction docs with
    | nil => exact Nat.zero_le _
    | cons doc docs ih =>
        have hlt := doc.vector_count.toNat_lt
        rw [total_vectors_cons, List.length_cons, Nat.succ_mul]
        omega
  omega

theorem bounds_of_mem_spans {first_vector : ℕ} {docs : List DocEntry}
    (h : first_vector + total_vectors docs < 2 ^ 64) :
    ∀ s ∈ spans_from first_vector docs,
      first_vector ≤ s.1 ∧ s.1 + s.2.1 ≤ first_vector + total_vectors docs := by
  induction docs generalizing first_vector with
  | nil => exact fun s hs => absurd hs List.not_mem_nil
  | cons doc docs ih =>
      rw [total_vectors_cons] at h ⊢
      intro s hs
      rcases List.mem_cons.1 hs with rfl | hs
      · simp
      grind

end MultiVector

end Laurus
