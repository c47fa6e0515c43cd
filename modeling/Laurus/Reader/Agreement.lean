import Laurus.Reader.Helpers.Paths

/-!
# All paths of a reader lead to the one live copy

No two segments hold a document live; a document may be deleted in any number
of them, and covered by the ranges of more. Each path of the reader answers
with the data of the live copy, and with nothing where there is none
(`reader_paths_agree`). Three paths know less: the terms of a field are those
of the dictionaries, in which a deleted copy's terms stay until a merge, and
`is_deleted` and `doc_count` go by what a segment knows it holds.
-/

namespace Laurus

namespace InvertedIndexReader

open SegmentReader (live)

variable {D F P : Type}

/-- What the paths of a reader over some segments answer. -/
structure PathsAgree (segments : List (SegmentReader D F P)) (r : InvertedIndexReader D F P) :
    Prop where
  postings : ∀ field term, ∃ found, r.postings field term = some found ∧
    ((found.getD []).Pairwise fun a b => a.doc_id < b.doc_id) ∧
    ∀ d, (found.getD []).filter (fun entry => entry.doc_id = d) =
      ((copy_of segments d).bind fun c => c.posting field term).toList
  live_doc_ids : ∃ ids, r.live_doc_ids = some ids ∧ ids.Pairwise (· < ·) ∧
    ∀ d, d ∈ ids ↔ (copy_of segments d).isSome
  document : ∀ d, r.document d = some ((copy_of segments d).map DocCopy.document)
  document_fields : ∀ d field_names, r.document_fields d field_names =
    some ((copy_of segments d).map fun c => c.document.restrict field_names)
  get_doc_value : ∀ field d, r.get_doc_value field d =
    (copy_of segments d).bind fun c => (c.value field).join
  /-- That a live document has no value is left unsaid where its segment does
  not know what it holds. -/
  doc_values_batch : ∀ field doc_ids, ∃ answers,
    r.doc_values_batch field doc_ids = some answers ∧
    List.Forall₂ (fun d answer => answer = lookup (copy_of segments d) field ∨
      answer = .unknown ∧ lookup (copy_of segments d) field = .absent ∧
        ∃ s ∈ segments, d ∈ s.live ∧ s.membership = .unknown) doc_ids answers
  field_length : ∀ d field, r.field_length d field =
    some ((copy_of segments d).bind fun c => c.length field)
  field_lengths : ∀ field, ∃ get, r.field_lengths field = some get ∧
    ∀ d, get d = (copy_of segments d).bind fun c => c.length field
  range_search : ∀ field hits, ∃ ids, r.range_search field hits = some ids ∧
    ids.Pairwise (· < ·) ∧
    ∀ d, d ∈ ids ↔ ∃ c, copy_of segments d = some c ∧ ∃ p ∈ c.points field, hits p = true
  /-- A dictionary has its terms, whether or not their documents are deleted. -/
  terms : ∀ field, (((r.terms field).getD []).Pairwise fun a b => a.term < b.term) ∧
    ∀ term, (∃ t ∈ (r.terms field).getD [], t.term = term) ↔
      ∃ s ∈ segments, s.has_key (SegmentReader.term_key field term) = true
  is_deleted_of_dead : ∀ d, (∃ s ∈ segments, d ∈ s.core.docs) → copy_of segments d = none →
    r.is_deleted d = true
  dead_of_is_deleted : ∀ d, (∀ s ∈ segments, s.covers d = true → s.membership ≠ .unknown) →
    r.is_deleted d = true → (∃ s ∈ segments, d ∈ s.core.docs) ∧ copy_of segments d = none
  doc_count : (∀ s ∈ segments, s.membership ≠ .unknown) →
    ∀ ids, r.live_doc_ids = some ids → r.doc_count = ids.length
  doc_count_bound : (∀ s ∈ segments, s.membership = .unknown →
      (range_width s.min_doc_id s.max_doc_id).isSome) →
    ∀ ids, r.live_doc_ids = some ids → ids.length ≤ r.doc_count

/-- **All paths lead to the one live copy.** -/
theorem reader_paths_agree (segments : List (SegmentReader D F P))
    (h : Apart SegmentReader.live segments) :
    PathsAgree segments (from_segment_readers segments) where
  postings := postings_spec h
  live_doc_ids := by
    refine ⟨_, live_doc_ids_eq, (Finset.sortedLT_sort _).pairwise, fun d => ?_⟩
    rw [Finset.mem_sort, copy_of_isSome]
  document := document_eq h
  document_fields := document_fields_eq h
  get_doc_value := get_doc_value_eq h
  doc_values_batch field doc_ids := by
    refine ⟨_, doc_values_batch_eq field doc_ids, ?_⟩
    rw [List.forall₂_map_right_iff, List.forall₂_same]
    exact fun d _ => batch_eq h field d
  field_length := field_length_eq h
  field_lengths := field_lengths_eq h
  range_search := range_search_spec h
  terms := terms_spec segments
  is_deleted_of_dead := fun _ ⟨_, hs, hdoc⟩ hnone => is_deleted_of_dead hs hdoc hnone
  dead_of_is_deleted := fun _ hknown => dead_of_is_deleted hknown
  doc_count hknown ids hids := by
    obtain rfl := Option.some.inj (live_doc_ids_eq.symm.trans hids)
    rw [doc_count_eq h hknown, Finset.length_sort]
  doc_count_bound hwidth ids hids := by
    obtain rfl := Option.some.inj (live_doc_ids_eq.symm.trans hids)
    rw [Finset.length_sort]
    exact card_le_doc_count h hwidth

end InvertedIndexReader

/-! ## Segments of one term -/

namespace SegmentReader

/-- A segment whose documents all hold one term of the field `f`, without
values, lengths and points. -/
def of_term (info : SegmentInfo) (ids : List ℕ) (term : String) (ids_part : Option (Finset ℕ))
    (deleted_docs : Option (Finset ℕ)) (hascending : ids.Pairwise (· < ·))
    (hcovered : ∀ d ∈ ids, info.min_doc_id.toNat ≤ d ∧ d ≤ info.max_doc_id.toNat)
    (hcard : ids.toFinset.card = info.doc_count.toNat)
    (hids : ∀ part, ids_part = some part → part = ids.toFinset) :
    SegmentReader String Unit Unit where
  info
  core :=
    { key := SegmentKey.of info
      docs := ids.toFinset
      documents := fun _ => { fields := fun name => if name = "f" then some term else none }
      ids_part
      doc_values := fun _ => none
      norms := { slot_map := .contiguous 0 0, columns := [], column_index := fun _ => none }
      dictionary := some { sorted_terms := [term_key "f" term]
                           ascending := List.pairwise_singleton _ _ }
      has_postings := true
      posting_lists := fun key =>
        if key = term_key "f" term then ids.map fun d => ⟨d, 1, some [0]⟩ else []
      bkd_trees := fun _ => none
      docs_covered := fun d hd => hcovered d (List.mem_toFinset.1 hd)
      docs_card := hcard
      ids_eq := hids
      values_held := fun _ _ _ h => (nomatch h)
      norms_held := by
        intro d hd
        obtain ⟨hle, hlt⟩ := Finset.mem_Ico.1 hd
        omega
      lists_held := by
        grind [List.mem_toFinset]
      lists_ascending := by grind
      bkd_held := fun _ _ h => (nomatch h) }
  deleted_docs
  analyzer := fun _ value => [(value, 0)]
  key_eq := rfl

end SegmentReader

/-- A segment with ids from `min_doc_id` to `max_doc_id`. -/
def term_segment_info (segment_id : String) (doc_count min_doc_id max_doc_id : UInt64) :
    SegmentInfo :=
  { segment_id, doc_count, min_doc_id, max_doc_id, generation := 0, has_deletions := false
    deleted_count := none, shard_id := 0 }

theorem one_covered : ∀ d ∈ [1], (term_segment_info "a" 1 1 1).min_doc_id.toNat ≤ d ∧
    d ≤ (term_segment_info "a" 1 1 1).max_doc_id.toNat := by decide

theorem one_card : [1].toFinset.card = (term_segment_info "a" 1 1 1).doc_count.toNat := by decide

/-- Document 1 with `old`, deleted, and again with `new`. -/
def readded_segments : List (SegmentReader String Unit Unit) :=
  [.of_term (term_segment_info "a" 1 1 1) [1] "old" none (some {1}) (List.pairwise_singleton _ _)
      one_covered one_card nofun,
    .of_term (term_segment_info "b" 1 1 1) [1] "new" none none (List.pairwise_singleton _ _)
      one_covered one_card nofun]

theorem readded_segments_apart : Apart SegmentReader.live readded_segments := by
  unfold Apart readded_segments
  decide

theorem odd_ascending : [1, 3].Pairwise (· < ·) := by decide

theorem odd_covered : ∀ d ∈ [1, 3], (term_segment_info "a" 2 1 3).min_doc_id.toNat ≤ d ∧
    d ≤ (term_segment_info "a" 2 1 3).max_doc_id.toNat := by decide

theorem odd_card : [1, 3].toFinset.card = (term_segment_info "a" 2 1 3).doc_count.toNat := by
  decide

theorem even_ascending : [0, 2].Pairwise (· < ·) := by decide

theorem even_covered : ∀ d ∈ [0, 2], (term_segment_info "b" 2 0 2).min_doc_id.toNat ≤ d ∧
    d ≤ (term_segment_info "b" 2 0 2).max_doc_id.toNat := by decide

theorem even_card : [0, 2].toFinset.card = (term_segment_info "b" 2 0 2).doc_count.toNat := by
  decide

/-- Documents 1 and 3, the latter deleted, and documents 0 and 2 with a bit for
1; neither segment has a list of its ids. -/
def interleaved_segments : List (SegmentReader String Unit Unit) :=
  [.of_term (term_segment_info "a" 2 1 3) [1, 3] "odd" none (some {3}) odd_ascending odd_covered
      odd_card nofun,
    .of_term (term_segment_info "b" 2 0 2) [0, 2] "even" none (some {1}) even_ascending
      even_covered even_card nofun]

namespace InvertedIndexReader

theorem reader_paths_agree_readded :
    PathsAgree readded_segments (from_segment_readers readded_segments) :=
  reader_paths_agree readded_segments readded_segments_apart

/-- A term of a deleted copy is listed though no document has it, and a live
document is reported as deleted and the live ones are miscounted where segments
do not know what they hold. -/
theorem terms_of_deleted_copies :
    ((from_segment_readers readded_segments).postings "f" "old" = some none ∧
      (from_segment_readers readded_segments).terms "f" =
        some [⟨"new", 1, 1⟩, ⟨"old", 1, 1⟩]) ∧
    (copy_of interleaved_segments 1).isSome ∧
      (from_segment_readers interleaved_segments).is_deleted 1 = true ∧
      (∃ ids, (from_segment_readers interleaved_segments).live_doc_ids = some ids ∧
        ids.length = 3) ∧
      (from_segment_readers interleaved_segments).doc_count = 4 := by
  refine ⟨⟨by decide, by decide⟩, by decide, by decide, ⟨_, live_doc_ids_eq, ?_⟩, by decide⟩
  rw [Finset.length_sort]
  decide

end InvertedIndexReader

end Laurus
