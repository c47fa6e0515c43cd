import Laurus.Storage.Helpers.Structured
import Laurus.Store.Model.Document
import Mathlib.Data.List.Sigma

/-!
# What the readers of a segment find

A segment file is written once from its documents; `SegmentHolds` says that a
file holds a list of them, and `ReaderHolds` that a reader of it has no
offsets yet or the right ones. Every read of the reader is then a lookup in
the list.
-/

namespace Laurus

open Laurus.Comp StructReader StructWriter

variable {Document : Type} {codec : DocCodec Document}

/-- A document that is read back as it was written. -/
def DocCodec.RoundTrips (codec : DocCodec Document) (doc : Document) : Prop :=
  ∃ json, codec.to_vec doc = .ok json ∧ json.length < 2 ^ 63 ∧ codec.from_slice json = .ok doc

/-- The JSON of a document. -/
def DocCodec.json (codec : DocCodec Document) (doc : Document) : Bytes :=
  match codec.to_vec doc with
  | .ok json => json
  | .error _ => []

variable {doc : Document} {docs : List (Σ _ : UInt64, Document)} {segment : DocumentSegment}
  {file : Bytes} {id : UInt64} {r : StructReader}

theorem DocCodec.RoundTrips.spec (h : codec.RoundTrips doc) :
    codec.to_vec doc = .ok (codec.json doc) ∧ (codec.json doc).length < 2 ^ 64 ∧
      codec.from_slice (codec.json doc) = .ok doc := by
  obtain ⟨json, hto, hlen, hfrom⟩ := h
  grind [json]

/-! ## The file of a segment -/

/-- A document's entry. -/
def docBytes (codec : DocCodec Document) (doc : Σ _ : UInt64, Document) : Bytes :=
  Bytes.ofNatLE 8 doc.1.toNat ++
    (encode_u64 (UInt64.ofNat (codec.json doc.2).length) ++ codec.json doc.2)

/-- The bytes before the footer. -/
def segmentBody (codec : DocCodec Document) (docs : List (Σ _ : UInt64, Document)) : Bytes :=
  Bytes.ofNatLE 4 (UInt32.ofNat docs.length).toNat ++ docs.flatMap (docBytes codec)

theorem docBytes_long (codec : DocCodec Document) (doc : Σ _ : UInt64, Document) :
    8 + 1 ≤ (docBytes codec doc).length := by
  grind [length_encode_u64_pos, docBytes, Bytes.length_ofNatLE]

theorem docsBytes_long (codec : DocCodec Document) (docs : List (Σ _ : UInt64, Document)) :
    docs.length * (8 + 1) ≤ (docs.flatMap (docBytes codec)).length := by
  induction docs with
  | nil => simp
  | cons doc docs ih =>
      have hone := docBytes_long codec doc
      grind

theorem emits_docs
    (h : ∀ doc ∈ docs, codec.RoundTrips doc.2) :
    Emits (write_docs codec docs) (docs.flatMap (docBytes codec)) () := by
  induction docs with
  | nil => exact Emits.pure ()
  | cons doc docs ih =>
      obtain ⟨id, doc⟩ := doc
      rw [write_docs, (h _ List.mem_cons_self).spec.1]
      dsimp only
      exact (emits_u64 id).bind ((emits_bytes _).bind
        (ih fun doc hmem => h doc (List.mem_cons_of_mem _ hmem)))

/-- **The file of documents that are read back.** -/
theorem segment_file_eq (hfew : docs.length < 2 ^ 32)
    (h : ∀ doc ∈ docs, codec.RoundTrips doc.2) :
    segment_file codec docs = .ok (segmentBody codec docs ++
      footer codec.crc32 (segmentBody codec docs)) := by
  have hbody : Emits (write_segment_body codec docs) (segmentBody codec docs) () := by
    unfold write_segment_body
    rw [if_neg (by omega)]
    exact (emits_u32 _).bind (emits_docs h)
  obtain ⟨w, hwrite, hclose⟩ := close_of_emits codec.crc32 hbody
  rw [segment_file, hwrite]
  exact hclose

/-- A file that holds documents, in a segment whose range they are in. -/
structure SegmentHolds (codec : DocCodec Document) (segment : DocumentSegment)
    (docs : List (Σ _ : UInt64, Document)) (file : Bytes) : Prop where
  file_eq : file = segmentBody codec docs ++ footer codec.crc32 (segmentBody codec docs)
  few : docs.length < 2 ^ 32
  roundTrips : ∀ doc ∈ docs, codec.RoundTrips doc.2
  nodup : docs.NodupKeys
  range : ∀ doc ∈ docs, segment.start_doc_id ≤ doc.1 ∧ doc.1 ≤ segment.end_doc_id

theorem SegmentHolds.contains (h : SegmentHolds codec segment docs file)
    (hid : id ∈ docs.keys) : segment.contains id = true := by
  obtain ⟨doc, hmem⟩ := List.exists_of_mem_keys hid
  have hrange := h.range _ hmem
  exact decide_eq_true hrange

/-! ## The offsets -/

/-- Where the documents of a list lie, the first at `pos`. -/
def offsetsFrom (codec : DocCodec Document) (pos : ℕ) :
    List (Σ _ : UInt64, Document) → Offsets → Offsets
  | [], offsets => offsets
  | doc :: docs, offsets =>
    offsetsFrom codec (pos + (docBytes codec doc).length) docs (AList.insert doc.1 pos offsets)

theorem index_docs_eq
    (h : ∀ doc ∈ docs, codec.RoundTrips doc.2) {t : Bytes} (offsets : Offsets)
    (hrest : r.rest = docs.flatMap (docBytes codec) ++ t) :
    index_docs docs.length offsets r = .ok (offsetsFrom codec r.position docs offsets,
      r.advance (docs.flatMap (docBytes codec))) := by
  induction docs generalizing r offsets with
  | nil =>
      rw [List.flatMap_nil, ← input_advance, Input.advance_nil]
      rfl
  | cons doc docs ih =>
      have hdoc := (h _ List.mem_cons_self).spec
      rw [List.flatMap_cons, docBytes, List.append_assoc, List.append_assoc] at hrest
      have hid := reads_u64 doc.1 r _ hrest
      have hrest₁ := rest_advance_of hrest
      have hjson := reads_bytes hdoc.2.1 _ _ ((input_rest _).trans hrest₁)
      have hrest₂ := rest_advance_of hrest₁
      rw [List.length_cons, index_docs, bind_apply, get_apply]
      dsimp only
      rw [bind_apply, hid]
      dsimp only
      rw [bind_apply]
      rw [input_advance] at hjson ⊢
      rw [hjson]
      dsimp only
      rw [ih (fun doc hmem => h doc (List.mem_cons_of_mem _ hmem)) _ hrest₂]
      have hwhole : ∀ cs, ((r.advance (Bytes.ofNatLE 8 doc.1.toNat)).advance
          (encode_u64 (UInt64.ofNat (codec.json doc.2).length) ++ codec.json doc.2)).advance cs =
            r.advance (docBytes codec doc ++ cs) := by
        intro cs
        simp only [← input_advance, Input.advance_append, docBytes, List.append_assoc]
      have hposition : ((r.advance (Bytes.ofNatLE 8 doc.1.toNat)).advance
          (encode_u64 (UInt64.ofNat (codec.json doc.2).length) ++ codec.json doc.2)).position =
            r.position + (docBytes codec doc).length := by
        simp only [StructReader.advance, docBytes, List.length_append]
        omega
      rw [hwhole, hposition, List.flatMap_cons]
      rfl

theorem lookup_offsets_other
    (hid : id ∉ docs.keys) (pos : ℕ) (offsets : Offsets) :
    AList.lookup id (offsetsFrom codec pos docs offsets) = AList.lookup id offsets := by
  induction docs generalizing pos offsets with
  | nil => rfl
  | cons doc docs ih =>
      rw [List.keys_cons, List.mem_cons, not_or] at hid
      rw [offsetsFrom, ih hid.2, AList.lookup_insert_ne hid.1]

theorem lookup_offsets {before after : List (Σ _ : UInt64, Document)}
    {doc : Σ _ : UInt64, Document} (hnodup : (before ++ doc :: after).NodupKeys) (pos : ℕ)
    (offsets : Offsets) :
    AList.lookup doc.1 (offsetsFrom codec pos (before ++ doc :: after) offsets) =
      some (pos + (before.flatMap (docBytes codec)).length) := by
  induction before generalizing pos offsets with
  | nil =>
      grind [offsetsFrom, lookup_offsets_other, AList.lookup_insert]
  | cons first before ih =>
      rw [List.cons_append, List.nodupKeys_cons] at hnodup
      rw [List.cons_append, offsetsFrom, ih hnodup.2, List.flatMap_cons, List.length_append,
        Nat.add_assoc]

/-- **The index of a file.** -/
theorem index_file_eq (h : SegmentHolds codec segment docs file) :
    ∃ r, index_file codec segment (StructReader.new file) =
      .ok (offsetsFrom codec 4 docs ∅, r) := by
  obtain ⟨r', hexpect⟩ := expect_checksum_closed codec.crc32
    s!"document segment {segment.file_name}" (segmentBody codec docs)
  refine ⟨r', ?_⟩
  rw [← h.file_eq] at hexpect
  set count := Bytes.ofNatLE 4 (UInt32.ofNat docs.length).toNat with hcount
  have hrest : (StructReader.new file).rest = count ++ (docs.flatMap (docBytes codec) ++
      footer codec.crc32 (segmentBody codec docs)) := by
    show file.drop 0 = _
    rw [List.drop_zero, h.file_eq, segmentBody, List.append_assoc]
  have hfirst := reads_u32 (UInt32.ofNat docs.length) _ _ hrest
  have hrest₁ := rest_advance_of hrest
  have hlength : (UInt32.ofNat docs.length).toNat = docs.length := by
    exact Nat.mod_eq_of_lt h.few
  have hlong := docsBytes_long codec docs
  have hremaining := remaining_of_rest hrest₁
  have hindex := index_docs_eq h.roundTrips ∅ hrest₁
  rw [index_file, bind_apply, hfirst]
  dsimp only
  rw [input_advance, bind_apply, get_apply]
  dsimp only
  have hcapacity : checked_capacity_u64 (UInt32.ofNat docs.length).toNat (8 + 1)
      ((StructReader.new file).advance count).remaining "document segment doc count" =
        .ok docs.length := by
    grind [checked_capacity_u64_eq_ok, SegmentHolds.few]
  have hreserve : reserve docs.length ((StructReader.new file).advance count) =
      .ok ((), (StructReader.new file).advance count) := by
    rw [reserve, bind_apply, get_apply]
    dsimp only
    rw [if_neg (by omega)]
    rfl
  rw [bind_apply, hcapacity]
  simp only [Read.liftE, pure_apply]
  rw [bind_apply, hreserve]
  dsimp only
  rw [bind_apply, hindex]
  dsimp only
  have hbody : ((StructReader.new file).advance count).advance (docs.flatMap (docBytes codec)) =
      (StructReader.new file).advance (segmentBody codec docs) := by
    simp only [← input_advance, Input.advance_append]
    rfl
  rw [hbody, bind_apply, hexpect]
  rfl

/-! ## An entry -/

/-- The reader after a seek to `offset`. -/
def soughtTo (r : StructReader) (offset : ℕ) : StructReader :=
  { r with sequential := r.sequential && offset = r.position, position := offset }

theorem seek_start (r : StructReader) (offset : ℕ) :
    seek (.Start offset) r = .ok (offset, soughtTo r offset) := by
  unfold seek
  dsimp only
  rfl

theorem read_entry_eq (segment : DocumentSegment)
    (h : codec.RoundTrips doc) {before after : Bytes}
    (hfile : r.file = before ++ (docBytes codec ⟨id, doc⟩ ++ after)) :
    ∃ r', read_entry codec segment id before.length r = .ok (doc, r') ∧ r'.file = r.file := by
  obtain ⟨-, hlen, hfrom⟩ := h.spec
  have hrest : (soughtTo r before.length).rest = Bytes.ofNatLE 8 id.toNat ++
      (encode_u64 (UInt64.ofNat (codec.json doc).length) ++ codec.json doc ++ after) := by
    show r.file.drop before.length = _
    rw [hfile, List.drop_left, docBytes, List.append_assoc]
  have hid := reads_u64 id _ _ hrest
  have hrest₁ := rest_advance_of hrest
  have hjson := reads_bytes hlen _ _ ((input_rest _).trans hrest₁)
  refine ⟨((soughtTo r before.length).advance (Bytes.ofNatLE 8 id.toNat)).advance
    (encode_u64 (UInt64.ofNat (codec.json doc).length) ++ codec.json doc), ?_, rfl⟩
  unfold read_entry
  rw [bind_apply, seek_start]
  dsimp only
  rw [bind_apply, hid]
  dsimp only
  rw [if_neg (by simp), input_advance, bind_apply, hjson]
  dsimp only
  rw [hfrom]
  rfl

theorem SegmentHolds.lies (h : SegmentHolds codec segment docs file)
    (hdoc : docs.dlookup id = some doc) :
    ∃ before after, AList.lookup id (offsetsFrom codec 4 docs ∅) = some before.length ∧
      file = before ++ (docBytes codec ⟨id, doc⟩ ++ after) := by
  obtain ⟨first, last, rfl⟩ := List.append_of_mem (List.of_mem_dlookup hdoc)
  refine ⟨Bytes.ofNatLE 4 (UInt32.ofNat (first ++ ⟨id, doc⟩ :: last).length).toNat ++
    first.flatMap (docBytes codec), last.flatMap (docBytes codec) ++ footer codec.crc32
      (segmentBody codec (first ++ ⟨id, doc⟩ :: last)), ?_, ?_⟩
  · rw [List.length_append, Bytes.length_ofNatLE]
    exact lookup_offsets h.nodup 4 ∅
  · rw [h.file_eq]
    simp only [segmentBody, List.flatMap_append, List.flatMap_cons, List.append_assoc]

/-! ## Reads of a segment -/

theorem read_entries_eq (h : SegmentHolds codec segment docs file) {indexed : List (UInt64 × ℕ)}
    (hindexed : ∀ entry ∈ indexed, ∃ doc, docs.dlookup entry.1 = some doc ∧
      AList.lookup entry.1 (offsetsFrom codec 4 docs ∅) = some entry.2) (hfile : r.file = file) (results : Docs Document) :
    ∃ found r', read_entries codec segment indexed results r = .ok (found, r') ∧
      ∀ id, AList.lookup id found =
        if id ∈ indexed.map Prod.fst then docs.dlookup id else AList.lookup id results := by
  induction indexed generalizing r results with
  | nil => exact ⟨results, r, rfl, by simp⟩
  | cons entry indexed ih =>
      obtain ⟨id, offset⟩ := entry
      obtain ⟨doc, hdoc, hoffset⟩ := hindexed _ List.mem_cons_self
      obtain ⟨before, after, hlies, hsplit⟩ := h.lies hdoc
      have hsame : before.length = offset := by grind
      subst hsame
      obtain ⟨r₁, hread, hfile₁⟩ := read_entry_eq segment
        (h.roundTrips _ (List.of_mem_dlookup hdoc)) (hfile.trans hsplit)
      obtain ⟨found, r', hrest, hfound⟩ := ih
        (fun entry hmem => hindexed entry (List.mem_cons_of_mem _ hmem)) (hfile₁.trans hfile)
        (AList.insert id doc results)
      refine ⟨found, r', ?_, fun id' => ?_⟩
      · rw [read_entries, bind_apply, hread]
        exact hrest
      grind [AList.lookup_insert, AList.lookup_insert_ne]

namespace DocumentSegmentReader

/-- A reader of a file that holds documents, its offsets not built or the
right ones. -/
structure ReaderHolds (codec : DocCodec Document) (storage : DocStorage)
    (reader : DocumentSegmentReader) (docs : List (Σ _ : UInt64, Document)) : Prop where
  file : ∃ file, AList.lookup reader.segment.id storage.files = some file ∧
    SegmentHolds codec reader.segment docs file
  offsets : reader.offsets = none ∨ reader.offsets = some (offsetsFrom codec 4 docs ∅)

variable {storage : DocStorage} {reader : DocumentSegmentReader}
  {docs : List (Σ _ : UInt64, Document)}

/-- What a read leaves of a reader. -/
def Kept (codec : DocCodec Document) (storage : DocStorage) (docs : List (Σ _ : UInt64, Document))
    (reader reader' : DocumentSegmentReader) : Prop :=
  reader'.segment = reader.segment ∧ ReaderHolds codec storage reader' docs

theorem ReaderHolds.read_file (h : ReaderHolds codec storage reader docs) {α : Type} {p : Read α}
    {a : α} (hp : ∀ file, SegmentHolds codec reader.segment docs file →
      ∃ r, p (StructReader.new file) = .ok (a, r)) :
    reader.read_file storage p = .ok a := by
  grind [file, DocumentSegmentReader.read_file]

theorem ReaderHolds.load_offsets (h : ReaderHolds codec storage reader docs) :
    ∃ reader', reader.load_offsets codec storage =
      (.ok (offsetsFrom codec 4 docs ∅), reader') ∧ Kept codec storage docs reader reader' := by
  unfold DocumentSegmentReader.load_offsets
  rcases h.offsets with hnone | hsome
  · have hread := h.read_file fun file hholds => index_file_eq hholds
    rw [hnone, hread]
    exact ⟨_, rfl, rfl, h.file, Or.inr rfl⟩
  · rw [hsome]
    exact ⟨_, rfl, rfl, h⟩

/-- **A single read of a segment.** -/
theorem ReaderHolds.get_document (h : ReaderHolds codec storage reader docs) (id : UInt64) :
    ∃ reader', reader.get_document codec storage id = (.ok (docs.dlookup id), reader') ∧
      Kept codec storage docs reader reader' := by
  obtain ⟨file, -, hholds⟩ := h.file
  unfold DocumentSegmentReader.get_document
  by_cases hcontains : reader.segment.contains id = true
  · obtain ⟨reader', hload, hkept⟩ := h.load_offsets
    rw [if_pos hcontains, hload]
    dsimp only
    cases hdoc : docs.dlookup id with
    | none =>
        rw [lookup_offsets_other (List.dlookup_eq_none.1 hdoc)]
        exact ⟨reader', rfl, hkept⟩
    | some doc =>
        obtain ⟨before, after, hlies, -⟩ := hholds.lies hdoc
        rw [hlies]
        dsimp only
        rw [hkept.2.read_file (a := doc) fun file' hholds' => ?_]
        · exact ⟨reader', rfl, hkept⟩
        · obtain ⟨before', after', hlies', hsplit⟩ := hholds'.lies hdoc
          rw [hlies] at hlies'
          rw [Option.some.inj hlies']
          obtain ⟨r, hread, -⟩ := read_entry_eq reader'.segment
            (hholds'.roundTrips _ (List.of_mem_dlookup hdoc))
            (show (StructReader.new file').file = _ from hsplit)
          exact ⟨r, hread⟩
  · have hnone : docs.dlookup id = none :=
      List.dlookup_eq_none.2 fun hmem => hcontains (hholds.contains hmem)
    rw [if_neg hcontains, hnone]
    exact ⟨reader, rfl, rfl, h⟩

/-- **A batch read of a segment** finds what the single reads do. -/
theorem ReaderHolds.get_documents_batch (h : ReaderHolds codec storage reader docs)
    (ids : List UInt64) :
    ∃ found reader', reader.get_documents_batch codec storage ids = (.ok found, reader') ∧
      (∀ id, AList.lookup id found = if id ∈ ids then docs.dlookup id else none) ∧
        Kept codec storage docs reader reader' := by
  obtain ⟨file, -, hholds⟩ := h.file
  have hmissing : ∀ id, id ∉ docs.keys → docs.dlookup id = none := fun id hid =>
    List.dlookup_eq_none.2 hid
  unfold DocumentSegmentReader.get_documents_batch
  by_cases hany : ids.any reader.segment.contains = true
  · obtain ⟨reader', hload, hkept⟩ := h.load_offsets
    rw [if_pos hany, hload]
    dsimp only
    set indexed := ids.filterMap fun id =>
      (AList.lookup id (offsetsFrom codec 4 docs ∅)).map fun offset => (id, offset) with hindexed
    have hentry : ∀ entry ∈ indexed, entry.1 ∈ ids ∧ ∃ doc, docs.dlookup entry.1 = some doc ∧
        AList.lookup entry.1 (offsetsFrom codec 4 docs ∅) = some entry.2 := by
      intro entry hmem
      rw [hindexed, List.mem_filterMap] at hmem
      obtain ⟨id, hid, hsome⟩ := hmem
      obtain ⟨offset, hoffset, rfl⟩ := Option.map_eq_some_iff.1 hsome
      cases hdoc : docs.dlookup id with
      | none =>
          rw [lookup_offsets_other (List.dlookup_eq_none.1 hdoc)] at hoffset
          cases hoffset
      | some doc => exact ⟨hid, doc, rfl, hoffset⟩
    have hfound : ∀ id, id ∈ indexed.map Prod.fst ↔ id ∈ ids ∧ id ∈ docs.keys := by
      grind [Option.isSome_iff_exists, List.dlookup_isSome, SegmentHolds.lies]
    by_cases hnil : indexed = []
    · rw [if_pos hnil]
      refine ⟨∅, reader', rfl, fun id => ?_, hkept⟩
      have hnone := hfound id
      rw [hnil] at hnone
      split
      · rw [hmissing id fun hkey => List.not_mem_nil (hnone.2 ⟨‹_›, hkey⟩)]
        rfl
      · rfl
    · rw [if_neg hnil]
      set sorted := indexed.mergeSort fun first second => first.2 ≤ second.2 with hsorted
      have hperm : sorted.Perm indexed := List.mergeSort_perm _ _
      have hholds₁ : SegmentHolds codec reader'.segment docs file := by
        rw [hkept.1]
        exact hholds
      have hlies : ∀ entry ∈ sorted, ∃ doc, docs.dlookup entry.1 = some doc ∧
          AList.lookup entry.1 (offsetsFrom codec 4 docs ∅) = some entry.2 := fun entry hmem =>
        (hentry entry (hperm.mem_iff.1 hmem)).2
      obtain ⟨found, r, hread, hlookup⟩ := read_entries_eq hholds₁ hlies
        (show (StructReader.new file).file = file from rfl) ∅
      rw [hkept.2.read_file (a := found) fun file' hholds' => ?_]
      · refine ⟨found, reader', rfl, fun id => ?_, hkept⟩
        rw [hlookup id]
        have hmem : id ∈ sorted.map Prod.fst ↔ id ∈ ids ∧ id ∈ docs.keys := by grind
        by_cases hid : id ∈ ids
        · by_cases hkey : id ∈ docs.keys
          · grind
          · rw [if_neg fun hin => hkey (hmem.1 hin).2, if_pos hid, hmissing id hkey]
            rfl
        · rw [if_neg fun hin => hid (hmem.1 hin).1, if_neg hid]
          rfl
      · have hsame : file' = file := by
          rw [hholds'.file_eq, hholds.file_eq]
        rw [hsame]
        exact ⟨r, hread⟩
  · rw [if_neg hany]
    refine ⟨∅, reader, rfl, fun id => ?_, rfl, h⟩
    split
    · rename_i hid
      rw [hmissing id fun hkey => hany (List.any_eq_true.2 ⟨id, hid, hholds.contains hkey⟩)]
      rfl
    · rfl

end DocumentSegmentReader

end Laurus
