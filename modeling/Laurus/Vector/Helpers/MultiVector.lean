import Laurus.Vector.Model.MultiVectorFormat

/-!
# Rows of a multi-vector segment, and filling a document

A row has as many bytes as its kind says, whatever the values (`length_encode_row`). A call
of a sink passes when its rows are whole and not too many, and leaves their bytes
(`call_eq_ok`); so the calls of a document pass when together they have not too many rows
(`fill_eq_ok`), and those of all documents when each has exactly its own
(`fill_documents_eq_ok`).
-/

namespace Laurus

namespace MultiVector

variable {arithmetic : RowArithmetic} {codec : RowCodec} {dimension : ℕ}

/-! ## Rows -/

variable {α : Type} {values : List UInt32}

theorem error_ne_ok {ε : Type} {e : ε} {a : α} : (Except.error e : Except ε α) ≠ .ok a := by
  rintro ⟨⟩

theorem row_bytes_pos {kind : MultiVectorStorage} (h : 0 < dimension) :
    0 < kind.row_bytes dimension := by
  rcases kind
  all_goals
    simp only [MultiVectorStorage.row_bytes]
    omega

theorem length_flatMap_const {β : Type} {f : α → List β} {k : ℕ} {l : List α}
    (h : ∀ a ∈ l, (f a).length = k) : (l.flatMap f).length = l.length * k := by
  induction l with
  | nil => simp
  | cons a l ih =>
      grind

/-- **A row has the bytes of its kind.** -/
theorem length_encode_row (h : values.length = dimension) :
    (codec.encode_row arithmetic values).length = codec.row_bytes dimension := by
  rcases codec with _ | _ | _ | params
  · exact (length_flatMap_const fun v _ => Bytes.length_ofNatLE 4 v.toNat).trans
      (congrArg (· * 4) h)
  · exact (length_flatMap_const fun v _ => Bytes.length_ofNatLE 2 _).trans (congrArg (· * 2) h)
  · rw [RowCodec.encode_row, List.length_append, List.length_map, Bytes.length_ofNatLE, h]
    rfl
  · rw [RowCodec.encode_row, BinaryParams.encode_row, List.length_map, List.length_range, h]
    rfl

theorem length_wordsLE (w n : ℕ) (bytes : Bytes) : (Bytes.wordsLE w n bytes).length = n := by
  induction n generalizing bytes with
  | zero => rfl
  | succ n ih => rw [Bytes.wordsLE, List.length_cons, ih]

theorem length_decode_row (hfits : codec.Fits dimension) {bytes : Bytes}
    (h : bytes.length = codec.row_bytes dimension) :
    (codec.decode_row arithmetic bytes dimension).length = dimension := by
  rcases codec with _ | _ | _ | params
  · rw [RowCodec.decode_row, List.length_map, length_wordsLE]
  · rw [RowCodec.decode_row, List.length_map, length_wordsLE]
  · have hlength : bytes.length = dimension + 2 := h
    rw [RowCodec.decode_row, List.length_map, List.length_take]
    omega
  · rw [RowCodec.decode_row, BinaryParams.decode_row, List.length_map, List.length_range,
      hfits params rfl]

theorem length_chunks_exact (size count : ℕ) (l : List α) :
    (chunks_exact size count l).length = count := by
  induction count generalizing l with
  | zero => rfl
  | succ count ih => rw [chunks_exact, List.length_cons, ih]

theorem length_of_mem_chunks {size count : ℕ} {l : List α}
    (h : count * size ≤ l.length) : ∀ chunk ∈ chunks_exact size count l, chunk.length = size := by
  induction count generalizing l with
  | zero => exact fun chunk hchunk => absurd hchunk List.not_mem_nil
  | succ count ih =>
      rw [Nat.succ_mul] at h
      intro chunk hchunk
      rcases List.mem_cons.1 hchunk with rfl | hchunk
      · rw [List.length_take]
        omega
      grind

theorem length_encoded :
    ((chunks_exact dimension (values.length / dimension) values).flatMap
      (codec.encode_row arithmetic)).length =
        values.length / dimension * codec.row_bytes dimension := by
  rw [length_flatMap_const fun chunk hchunk => length_encode_row
    (length_of_mem_chunks (Nat.div_mul_le_self _ _) chunk hchunk), length_chunks_exact]

theorem length_to_f32 (rows : MultiVectorRows) :
    (rows.to_f32 arithmetic).length = rows.row_count * rows.dimension := by
  have hrow : ∀ row ∈ chunks_exact (rows.codec.row_bytes rows.dimension) rows.row_count
      rows.bytes, (rows.codec.decode_row arithmetic row rows.dimension).length =
        rows.dimension := fun row hmem => length_decode_row rows.fits
    (length_of_mem_chunks (Nat.div_mul_le_self _ _) row hmem)
  rw [MultiVectorRows.to_f32, length_flatMap_const hrow, length_chunks_exact]

theorem row_bytes_of_same_encoding {other : RowCodec} (h : codec.same_encoding other = true) :
    codec.row_bytes dimension = other.row_bytes dimension := by
  have hkind : codec.kind = other.kind := by
    rcases codec <;> rcases other <;> first | rfl | exact absurd h Bool.false_ne_true
  rw [RowCodec.row_bytes, RowCodec.row_bytes, hkind]

/-! ## Filling a document -/

/-- A call whose rows are whole. -/
def CallFits (dimension : ℕ) : SinkCall → Prop
  | .write values => values.length % dimension = 0
  | .append rows => rows.dimension = dimension

/-- How many rows a call has. -/
def call_rows (dimension : ℕ) : SinkCall → ℕ
  | .write values => values.length / dimension
  | .append rows => rows.row_count

/-- Values, encoded. -/
def encoded (arithmetic : RowArithmetic) (codec : RowCodec) (dimension : ℕ)
    (values : List UInt32) : Bytes :=
  (chunks_exact dimension (values.length / dimension) values).flatMap (codec.encode_row arithmetic)

/-- What a call leaves in the file: rows of the same encoding are copied. -/
def call_bytes (arithmetic : RowArithmetic) (codec : RowCodec) (dimension : ℕ) : SinkCall → Bytes
  | .write values => encoded arithmetic codec dimension values
  | .append rows =>
    if rows.codec.same_encoding codec then rows.bytes
    else encoded arithmetic codec dimension (rows.to_f32 arithmetic)

theorem length_call_bytes {c : SinkCall} (hpos : 0 < dimension) (h : CallFits dimension c) :
    (call_bytes arithmetic codec dimension c).length =
      call_rows dimension c * codec.row_bytes dimension := by
  rcases c with values | rows
  · exact length_encoded
  · obtain rfl : rows.dimension = dimension := h
    rw [call_bytes, call_rows]
    split
    · rename_i hsame
      rw [← row_bytes_of_same_encoding hsame, MultiVectorRows.row_count]
      exact (Nat.div_mul_cancel (Nat.dvd_of_mod_eq_zero rows.whole)).symm
    · rw [encoded, length_encoded, length_to_f32, Nat.mul_div_cancel _ hpos]

variable {sink sink' : PayloadSink}

theorem write_eq_ok :
    sink.write arithmetic codec dimension values = .ok sink' ↔
      values.length % dimension = 0 ∧ values.length / dimension ≤ sink.remaining ∧
      sink' = sink.push (encoded arithmetic codec dimension values)
        (values.length / dimension) := by
  rw [PayloadSink.write]
  by_cases hwhole : values.length % dimension = 0
  · rw [if_neg (not_not.2 hwhole)]
    dsimp only
    by_cases hroom : sink.remaining < values.length / dimension
    · grind
    · rw [if_neg hroom]
      constructor
      · intro h
        exact ⟨hwhole, by omega, (Except.ok.inj h).symm⟩
      · rintro ⟨_, _, rfl⟩
        rfl
  grind

/-- **What a call of a sink does.** -/
theorem call_eq_ok (hpos : 0 < dimension) {c : SinkCall} :
    sink.call arithmetic codec dimension c = .ok sink' ↔
      CallFits dimension c ∧ call_rows dimension c ≤ sink.remaining ∧
      sink' = sink.push (call_bytes arithmetic codec dimension c) (call_rows dimension c) := by
  rcases c with values | rows
  · exact write_eq_ok
  · rw [PayloadSink.call, PayloadSink.append]
    by_cases hdimension : rows.dimension = dimension
    · subst hdimension
      rw [if_neg (not_not.2 rfl), call_bytes, call_rows]
      by_cases hsame : rows.codec.same_encoding codec = true
      · have hbytes := @row_bytes_of_same_encoding _ rows.dimension _ hsame
        rw [if_pos hsame, if_pos hsame, PayloadSink.write_encoded, ← hbytes]
        dsimp only
        rw [if_neg (not_not.2 rows.whole)]
        by_cases hroom : sink.remaining < rows.row_count
        · rw [MultiVectorRows.row_count] at hroom
          rw [if_pos hroom]
          grind [MultiVectorRows.row_count]
        · rw [MultiVectorRows.row_count] at hroom
          rw [if_neg hroom, MultiVectorRows.row_count]
          constructor
          · intro h
            exact ⟨rfl, by omega, (Except.ok.inj h).symm⟩
          grind
      · rw [if_neg hsame, if_neg hsame, write_eq_ok, length_to_f32, Nat.mul_mod_left,
          Nat.mul_div_cancel _ hpos]
        exact ⟨fun h => ⟨rfl, h.2⟩, fun h => ⟨rfl, h.2⟩⟩
    · rw [if_pos hdimension]
      exact iff_of_false error_ne_ok fun h => hdimension h.1

/-- What a document's calls leave. -/
def doc_bytes (arithmetic : RowArithmetic) (codec : RowCodec) (dimension : ℕ)
    (calls : List SinkCall) : Bytes := calls.flatMap (call_bytes arithmetic codec dimension)

/-- How many rows a document's calls have. -/
def doc_rows (dimension : ℕ) (calls : List SinkCall) : ℕ := (calls.map (call_rows dimension)).sum

/-- **The calls of a document pass when their rows are whole and not too many.** -/
theorem fill_eq_ok (hpos : 0 < dimension) {calls : List SinkCall} :
    PayloadSink.fill arithmetic codec dimension sink calls = .ok sink' ↔
      (∀ c ∈ calls, CallFits dimension c) ∧ doc_rows dimension calls ≤ sink.remaining ∧
      sink' = sink.push (doc_bytes arithmetic codec dimension calls)
        (doc_rows dimension calls) := by
  induction calls generalizing sink with
  | nil =>
      have hpush : sink.push [] 0 = sink := by
        rw [PayloadSink.push, List.append_nil]
        rfl
      rw [PayloadSink.fill, doc_rows, doc_bytes, List.map_nil, List.sum_nil, List.flatMap_nil,
        hpush]
      grind
  | cons c calls ih =>
      rw [PayloadSink.fill, doc_rows, doc_bytes, List.map_cons, List.sum_cons, List.flatMap_cons,
        List.forall_mem_cons]
      rcases hcall : sink.call arithmetic codec dimension c with e | next
      · refine iff_of_false error_ne_ok ?_
        rintro ⟨⟨hfits, _⟩, hle, _⟩
        have hok := (@call_eq_ok arithmetic codec dimension sink _ hpos c).2
          ⟨hfits, (Nat.le_add_right _ _).trans hle, rfl⟩
        exact error_ne_ok (hcall.symm.trans hok)
      · obtain ⟨hfits, hroom, rfl⟩ := (call_eq_ok hpos).1 hcall
        dsimp only
        rw [ih]
        have hpush : (sink.push (call_bytes arithmetic codec dimension c)
            (call_rows dimension c)).push (doc_bytes arithmetic codec dimension calls)
              (doc_rows dimension calls) =
            sink.push (call_bytes arithmetic codec dimension c ++
              doc_bytes arithmetic codec dimension calls)
              (call_rows dimension c + doc_rows dimension calls) := by
          simp only [PayloadSink.push, List.append_assoc, List.foldl_append, Nat.sub_sub]
        rw [hpush]
        have hremaining : (sink.push (call_bytes arithmetic codec dimension c)
            (call_rows dimension c)).remaining = sink.remaining - call_rows dimension c := rfl
        constructor
        · rintro ⟨hall, hle, rfl⟩
          exact ⟨⟨hfits, hall⟩, by change _ + doc_rows dimension calls ≤ _; omega, rfl⟩
        · rintro ⟨⟨_, hall⟩, hle, rfl⟩
          exact ⟨hall, by change _ + doc_rows dimension calls ≤ _ at hle; omega, rfl⟩

/-- A document is filled: its rows are whole, and as many as its entry says. -/
def Filled (dimension : ℕ) (doc : DocEntry × List SinkCall) : Prop :=
  (∀ c ∈ doc.2, CallFits dimension c) ∧ doc_rows dimension doc.2 = doc.1.vector_count.toNat

theorem length_calls_bytes (hpos : 0 < dimension) {calls : List SinkCall}
    (hfits : ∀ c ∈ calls, CallFits dimension c) :
    (doc_bytes arithmetic codec dimension calls).length =
      doc_rows dimension calls * codec.row_bytes dimension := by
  rw [doc_bytes, doc_rows]
  induction calls with
  | nil => simp
  | cons c calls ih =>
      rw [List.flatMap_cons, List.length_append, List.map_cons, List.sum_cons, Nat.add_mul,
        length_call_bytes hpos (hfits c List.mem_cons_self),
        ih fun d hd => hfits d (List.mem_cons_of_mem _ hd)]

theorem length_doc_bytes (hpos : 0 < dimension) {doc : DocEntry × List SinkCall}
    (h : Filled dimension doc) : (doc_bytes arithmetic codec dimension doc.2).length =
      doc.1.vector_count.toNat * codec.row_bytes dimension := by
  rw [length_calls_bytes hpos h.1, h.2]

/-- The payload of the documents. -/
def payload_bytes (arithmetic : RowArithmetic) (codec : RowCodec) (dimension : ℕ)
    (docs : List (DocEntry × List SinkCall)) : Bytes :=
  docs.flatMap fun doc => doc_bytes arithmetic codec dimension doc.2

/-- **The documents are written when each is filled.** -/
theorem fill_documents_eq_ok (hpos : 0 < dimension) {docs : List (DocEntry × List SinkCall)}
    {written written' : Bytes × UInt32} :
    fill_documents arithmetic codec dimension written docs = .ok written' ↔
      (∀ doc ∈ docs, Filled dimension doc) ∧
      written' = (written.1 ++ payload_bytes arithmetic codec dimension docs,
        (payload_bytes arithmetic codec dimension docs).foldl Crc32.update written.2) := by
  induction docs generalizing written with
  | nil =>
      rw [fill_documents, payload_bytes, List.flatMap_nil, List.append_nil]
      grind
  | cons doc docs ih =>
      obtain ⟨entry, calls⟩ := doc
      rw [fill_documents, payload_bytes, List.flatMap_cons, List.forall_mem_cons]
      rcases hfill : PayloadSink.fill arithmetic codec dimension
          ⟨written.1, written.2, entry.vector_count.toNat⟩ calls with e | sink
      · refine iff_of_false error_ne_ok ?_
        rintro ⟨⟨⟨hfits, hrows⟩, _⟩, _⟩
        have hok := (@fill_eq_ok arithmetic codec dimension
          ⟨written.1, written.2, entry.vector_count.toNat⟩ _ hpos calls).2
            ⟨hfits, hrows.le, rfl⟩
        exact error_ne_ok (hfill.symm.trans hok)
      · obtain ⟨hfits, hroom, rfl⟩ := (fill_eq_ok hpos).1 hfill
        dsimp only [PayloadSink.push] at hroom ⊢
        by_cases hrows : entry.vector_count.toNat - doc_rows dimension calls ≠ 0
        · rw [if_pos hrows]
          refine iff_of_false error_ne_ok fun h => ?_
          have heq : doc_rows dimension calls = entry.vector_count.toNat := h.1.1.2
          omega
        · rw [if_neg hrows, ih]
          dsimp only
          rw [List.append_assoc, List.foldl_append]
          have heq : doc_rows dimension calls = entry.vector_count.toNat := by omega
          exact ⟨fun h => ⟨⟨⟨hfits, heq⟩, h.1⟩, h.2⟩, fun h => ⟨h.1.2, h.2⟩⟩

theorem length_payload_bytes (hpos : 0 < dimension) {docs : List (DocEntry × List SinkCall)}
    (h : ∀ doc ∈ docs, Filled dimension doc) :
    (payload_bytes arithmetic codec dimension docs).length =
      ((docs.map Prod.fst).map fun d => d.vector_count.toNat).sum * codec.row_bytes dimension := by
  induction docs with
  | nil => rw [payload_bytes, List.flatMap_nil, List.map_nil, List.map_nil, List.sum_nil,
      Nat.zero_mul, List.length_nil]
  | cons doc docs ih =>
      rw [payload_bytes, List.flatMap_cons, List.length_append, List.map_cons, List.map_cons,
        List.sum_cons, Nat.add_mul, length_doc_bytes hpos (h doc List.mem_cons_self)]
      exact congrArg _ (ih fun d hd => h d (List.mem_cons_of_mem _ hd))

end MultiVector

end Laurus
