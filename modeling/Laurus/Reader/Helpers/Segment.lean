import Laurus.Reader.Model.Segment
import Mathlib.Data.Finset.Sort
import Mathlib.Order.Interval.Finset.Nat

/-!
# One segment: its live documents and its copy of each

`live` are the documents that are stored and not marked deleted. What a
segment answers for a document it answers for a live one only, and the
answer is the segment's copy of it (`SegmentReader.copy`). The membership
tells which documents are held, except where it is unknown.
-/

namespace Laurus

variable {D F P : Type}

/-- What a segment has of one document. -/
structure DocCopy (D F P : Type) where
  document : StoredDocument D
  /-- A field's value, if the segment has a column of the field. -/
  value : String → Option (Option F)
  length : String → Option ℕ
  posting : String → String → Option PostingEntry
  points : String → List P

namespace SegmentReader

variable {s : SegmentReader D F P} {d : ℕ} {field term : String}

/-- The documents that are stored and not deleted. -/
def live (s : SegmentReader D F P) : Finset ℕ := s.core.docs.filter fun d => s.is_deleted d = false

theorem mem_live : d ∈ s.live ↔ d ∈ s.core.docs ∧ s.is_deleted d = false := Finset.mem_filter

theorem not_deleted (h : d ∈ s.live) : s.is_deleted d = false := (mem_live.1 h).2

/-- The deleted documents, none where there is no bitmap. -/
def deleted (s : SegmentReader D F P) : Finset ℕ := s.deleted_docs.getD ∅

theorem is_deleted_iff : s.is_deleted d = true ↔ d ∈ s.deleted := by
  unfold is_deleted deleted
  grind

theorem live_eq : s.live = s.core.docs \ s.deleted := by
  ext d
  rw [mem_live, Finset.mem_sdiff, ← is_deleted_iff, Bool.not_eq_true]

/-! ## The documents a segment holds -/

theorem docs_card_eq : s.core.docs.card = s.info.doc_count.toNat := by
  rw [s.core.docs_card, s.key_eq]
  rfl

theorem docs_range (h : d ∈ s.core.docs) : s.min_doc_id ≤ d ∧ d ≤ s.max_doc_id := by
  have := s.core.docs_covered d h
  rwa [s.key_eq] at this

theorem covers_iff : s.covers d = true ↔ s.min_doc_id ≤ d ∧ d ≤ s.max_doc_id := by
  rw [covers, decide_eq_true_eq]

theorem docs_subset : s.core.docs ⊆ Finset.Icc s.min_doc_id s.max_doc_id := fun _ h =>
  Finset.mem_Icc.2 (docs_range h)

theorem range_width_eq_some {a b w : ℕ} (h : range_width a b = some w) :
    a ≤ b ∧ w = b - a + 1 := by
  unfold range_width at h
  grind

/-- **The membership is that of the stored documents**, where it is known. -/
theorem membership_cases (s : SegmentReader D F P) :
    s.membership = .empty ∧ s.core.docs = ∅ ∨
      s.membership = .range ∧ s.core.docs = Finset.Icc s.min_doc_id s.max_doc_id ∨
      s.membership = .set s.core.docs ∨ s.membership = .unknown := by
  have hcard := s.docs_card_eq
  unfold membership Membership.from_shape
  split
  · grind
  · split
    · rename_i hwidth
      obtain ⟨hle, hwidth⟩ := range_width_eq_some hwidth
      -- as many documents as the range has ids
      grind [Finset.eq_of_subset_of_card_le, docs_subset, Nat.card_Icc]
    · right
      right
      match hids : s.core.ids_part with
      | none => exact Or.inr rfl
      | some ids =>
          obtain rfl := s.core.ids_eq ids hids
          unfold Membership.from_loaded
          grind

theorem holds_eq (hknown : s.membership ≠ .unknown) (hcovers : s.covers d = true) :
    s.membership.holds d = some (decide (d ∈ s.core.docs)) := by
  rcases s.membership_cases with ⟨h, hdocs⟩ | ⟨h, hdocs⟩ | h | h
  · rw [h, hdocs]
    rfl
  · rw [h, hdocs, decide_eq_true (Finset.mem_Icc.2 (covers_iff.1 hcovers))]
    rfl
  · rw [h]
    rfl
  · exact absurd h hknown

theorem mem_of_holds (hcovers : s.covers d = true) (h : s.membership.holds d = some true) :
    d ∈ s.core.docs := by
  have hknown : s.membership ≠ .unknown := by
    intro hunknown
    rw [hunknown] at h
    cases h
  rw [holds_eq hknown hcovers] at h
  exact of_decide_eq_true (Option.some.inj h)

theorem live_doc_ids_eq : s.live_doc_ids = s.live := by
  grind [live_eq, live_doc_ids, deleted, doc_ids, membership_cases]

/-! ## Counting -/

theorem card_live : s.live.card = s.info.doc_count.toNat - (s.deleted ∩ s.core.docs).card := by
  rw [live_eq, Finset.card_sdiff, docs_card_eq]

theorem doc_count_eq : s.doc_count = s.info.doc_count.toNat -
    s.membership.held_deletions s.deleted s.min_doc_id s.max_doc_id s.info.doc_count.toNat := by
  unfold doc_count deleted
  match s.deleted_docs with
  | some deleted => rfl
  | none =>
      match s.membership with
      | .empty => rfl
      | .range => rfl
      | .set ids => simp [Membership.held_deletions]
      | .unknown => simp [Membership.held_deletions, Membership.range_cardinality]

/-- **The count is that of the live documents**, where the membership is known. -/
theorem doc_count_of_known (hknown : s.membership ≠ .unknown) : s.doc_count = s.live.card := by
  rw [doc_count_eq, card_live]
  rcases s.membership_cases with ⟨h, hdocs⟩ | ⟨h, hdocs⟩ | h | h
  · rw [h, hdocs, Finset.inter_empty]
    rfl
  · rw [h, hdocs]
    refine congrArg (s.info.doc_count.toNat - ·) (congrArg Finset.card ?_)
    grind
  · rw [h]
    rfl
  · exact absurd h hknown

/-- **Otherwise it is a bound on them**: as many ids of the range as are not
documents are taken for the marked ones that are not. -/
theorem card_live_le (hwidth : s.membership = .unknown →
    (range_width s.min_doc_id s.max_doc_id).isSome) : s.live.card ≤ s.doc_count := by
  by_cases hknown : s.membership = .unknown
  · obtain ⟨width, hwidth⟩ := Option.isSome_iff_exists.1 (hwidth hknown)
    obtain ⟨hle, rfl⟩ := range_width_eq_some hwidth
    rw [doc_count_eq, card_live, hknown]
    unfold Membership.held_deletions Membership.range_cardinality
    simp only [hwidth, Option.getD_some]
    have hgaps : (Finset.Icc s.min_doc_id s.max_doc_id \ s.core.docs).card =
        s.max_doc_id - s.min_doc_id + 1 - s.info.doc_count.toNat := by
      rw [Finset.card_sdiff_of_subset s.docs_subset, Nat.card_Icc, docs_card_eq]
      omega
    have hmarked : (s.deleted.filter fun d => s.min_doc_id ≤ d ∧ d ≤ s.max_doc_id).card ≤
        (s.deleted ∩ s.core.docs).card +
          (Finset.Icc s.min_doc_id s.max_doc_id \ s.core.docs).card := by
      refine le_trans (Finset.card_le_card fun d hd => ?_) (Finset.card_union_le _ _)
      grind
    omega
  · exact (doc_count_of_known hknown).ge

/-! ## The copy of a document -/

/-- The posting of a document, deleted or not. -/
def copy_posting (s : SegmentReader D F P) (d : ℕ) (field term : String) : Option PostingEntry :=
  if s.core.has_postings then
    if s.has_key (term_key field term) then
      (s.core.posting_lists (term_key field term)).find? fun entry => entry.doc_id = d
    else none
  else s.scan_document field term d

/-- What the segment has of a document. -/
def copy (s : SegmentReader D F P) (d : ℕ) : DocCopy D F P where
  document := s.core.documents d
  value field := (s.core.doc_values field).map fun column => column d
  length field := s.core.norms.field_length d field
  posting := s.copy_posting d
  points field :=
    (((s.core.bkd_trees field).getD []).filter fun point => point.1 = d).map Prod.snd

/-! ## What the segment answers -/

theorem document_eq (s : SegmentReader D F P) (d : ℕ) :
    s.document d = if d ∈ s.live then some (s.copy d).document else none := by
  unfold document
  by_cases hdeleted : s.is_deleted d = true
  · rw [if_pos hdeleted, if_neg fun h => absurd (not_deleted h) (by simp [hdeleted])]
  · rw [if_neg hdeleted]
    refine if_congr ?_ rfl rfl
    rw [mem_live]
    simp [hdeleted]

theorem document_fields_eq (s : SegmentReader D F P) (d : ℕ) (field_names : List String) :
    s.document_fields d field_names = (s.document d).map (·.restrict field_names) := by
  unfold document_fields document
  grind

theorem get_doc_value_of_live (h : d ∈ s.live) :
    s.get_doc_value field d = ((s.copy d).value field).join := by
  show _ = ((s.core.doc_values field).map fun column => column d).join
  rw [get_doc_value, not_deleted h, if_neg Bool.false_ne_true]
  match s.core.doc_values field with
  | none => rfl
  | some column => rfl

theorem live_of_get_doc_value (h : (s.get_doc_value field d).isSome) : d ∈ s.live := by
  unfold get_doc_value at h
  split at h
  · cases h
  · rename_i hdeleted
    match hcolumn : s.core.doc_values field with
    | none =>
        rw [hcolumn] at h
        cases h
    | some column =>
        rw [hcolumn] at h
        exact mem_live.2
          ⟨s.core.values_held field column d hcolumn h, Bool.not_eq_true _ ▸ hdeleted⟩

theorem slot_map_docs {m : SlotMap} (h : (m.slot_of d).isSome) : d ∈ m.docs := by
  unfold SlotMap.slot_of at h
  match m with
  | .contiguous min_doc_id count =>
      simp only at h
      split at h
      · cases h
      · split at h
        · exact Finset.mem_Ico.2 (by omega)
        · cases h
  | .sparse ids =>
      rw [List.findIdx?_isSome, List.any_eq_true] at h
      obtain ⟨id, hid, heq⟩ := h
      rw [beq_iff_eq] at heq
      exact List.mem_toFinset.2 (heq ▸ hid)

theorem docs_of_column_length {column : ℕ}
    (h : (s.core.norms.column_length column d).isSome) : d ∈ s.core.docs := by
  refine s.core.norms_held (slot_map_docs ?_)
  unfold NormsReader.column_length at h
  match hcolumn : s.core.norms.columns[column]?, hslot : s.core.norms.slot_map.slot_of d with
  | _, some slot => rfl
  | none, none =>
      rw [hcolumn] at h
      cases h
  | some f, none =>
      rw [hcolumn, hslot] at h
      cases h

theorem field_length_of_live (h : d ∈ s.live) :
    s.field_length d field = (s.copy d).length field := by
  rw [field_length, not_deleted h]
  rfl

theorem live_of_field_length (h : (s.field_length d field).isSome) : d ∈ s.live := by
  unfold field_length at h
  split at h
  · cases h
  · rename_i hdeleted
    unfold NormsReader.field_length at h
    match hcolumn : s.core.norms.column field with
    | none =>
        rw [hcolumn] at h
        cases h
    | some column =>
        rw [hcolumn] at h
        exact mem_live.2 ⟨docs_of_column_length h, Bool.not_eq_true _ ▸ hdeleted⟩

/-! ## Postings -/

/-- The postings of a term, none where there is no iterator. -/
def listed (s : SegmentReader D F P) (field term : String) : List PostingEntry :=
  (s.postings field term).getD []

theorem listed_eq (s : SegmentReader D F P) (field term : String) :
    s.listed field term =
      if ! s.core.has_postings then s.scan_documents_for_term field term
      else if s.has_key (term_key field term) then
        s.filter_deleted_soa (s.core.posting_lists (term_key field term))
      else [] := by
  grind [listed, postings]

theorem filter_deleted_soa_eq (decoded : List PostingEntry) :
    s.filter_deleted_soa decoded = decoded.filter fun entry => ! s.is_deleted entry.doc_id := by
  unfold filter_deleted_soa is_deleted
  match s.deleted_docs with
  | none => simp
  | some deleted => simp

theorem scan_document_doc_id {entry : PostingEntry}
    (h : s.scan_document field term d = some entry) : entry.doc_id = d := by
  unfold scan_document at h
  match hvalue : (s.core.documents d).fields field with
  | none =>
      rw [hvalue] at h
      cases h
  | some value =>
      grind

/-- **Only live documents are listed, each once and in order.** -/
theorem listed_live : ∀ entry ∈ s.listed field term, entry.doc_id ∈ s.live := by
  intro entry hentry
  rw [listed_eq] at hentry
  split at hentry
  · obtain ⟨d, hd, hfound⟩ := List.mem_filterMap.1 hentry
    split at hfound
    · cases hfound
    · rename_i hdeleted
      rw [scan_document_doc_id hfound]
      exact mem_live.2 ⟨(Finset.mem_sort _).1 hd, Bool.not_eq_true _ ▸ hdeleted⟩
  · split at hentry
    · rw [filter_deleted_soa_eq, List.mem_filter, Bool.not_eq_true'] at hentry
      exact mem_live.2 ⟨s.core.lists_held _ entry hentry.1, hentry.2⟩
    · cases hentry

theorem listed_ascending (s : SegmentReader D F P) (field term : String) :
    (s.listed field term).Pairwise fun a b => a.doc_id < b.doc_id := by
  rw [listed_eq]
  split
  · refine List.Pairwise.filterMap _ ?_ (Finset.sortedLT_sort s.core.docs).pairwise
    grind [scan_document_doc_id]
  · split
    · rw [filter_deleted_soa_eq]
      exact (s.core.lists_ascending _).filter _
    · exact List.Pairwise.nil

theorem find_eq_some_iff {entries : List PostingEntry} {entry : PostingEntry}
    (h : entries.Pairwise fun a b => a.doc_id < b.doc_id) :
    (entries.find? fun e => e.doc_id = d) = some entry ↔ entry ∈ entries ∧ entry.doc_id = d := by
  induction entries with
  | nil => simp
  | cons first entries ih =>
      obtain ⟨hfirst, hrest⟩ := List.pairwise_cons.1 h
      grind

theorem filter_eq_toList {entries : List PostingEntry} {found : Option PostingEntry}
    (h : entries.Pairwise fun a b => a.doc_id < b.doc_id)
    (hfound : ∀ entry, entry ∈ entries ∧ entry.doc_id = d ↔ found = some entry) :
    (entries.filter fun entry => entry.doc_id = d) = found.toList := by
  obtain rfl : entries.find? (fun e => e.doc_id = d) = found :=
    Option.ext fun entry => by rw [find_eq_some_iff h, hfound]
  induction entries with
  | nil => rfl
  | cons first entries ih =>
      obtain ⟨hfirst, hrest⟩ := List.pairwise_cons.1 h
      by_cases heq : first.doc_id = d
      · rw [List.filter_cons_of_pos (by simpa using heq),
          List.find?_cons_of_pos (by simpa using heq)]
        refine congrArg (first :: ·) (List.filter_eq_nil_iff.2 fun e he => ?_)
        grind
      grind

/-- **The posting that is listed for a live document is its copy's.** -/
theorem listed_of_live (h : d ∈ s.live) :
    ((s.listed field term).filter fun entry => entry.doc_id = d) =
      ((s.copy d).posting field term).toList := by
  obtain ⟨hdoc, hdeleted⟩ := mem_live.1 h
  refine filter_eq_toList (s.listed_ascending field term) fun entry => ?_
  rw [listed_eq]
  show _ ↔ s.copy_posting d field term = some entry
  unfold copy_posting
  by_cases hpostings : s.core.has_postings = true
  · rw [if_neg (by simp [hpostings]), if_pos hpostings]
    split
    · rw [filter_deleted_soa_eq, List.mem_filter, find_eq_some_iff (s.core.lists_ascending _)]
      grind
    · simp
  · rw [if_pos (by simp [hpostings]), if_neg hpostings]
    grind [scan_documents_for_term, scan_document_doc_id, Finset.mem_sort]

/-! ## Points -/

/-- The points that a search of the filtered tree goes through. -/
def points (s : SegmentReader D F P) (field : String) : List (ℕ × P) :=
  (s.get_filtered_bkd_tree field).getD []

theorem mem_points {point : ℕ × P} :
    point ∈ s.points field ↔
      point.1 ∈ s.live ∧ point.2 ∈ (s.copy point.1).points field := by
  have hcopy : point.2 ∈ (s.copy point.1).points field ↔
      point ∈ (s.core.bkd_trees field).getD [] := by
    show point.2 ∈ ((((s.core.bkd_trees field).getD []).filter fun p => p.1 = point.1).map
      Prod.snd) ↔ _
    simp
  rw [hcopy]
  unfold points get_filtered_bkd_tree
  match htree : s.core.bkd_trees field with
  | none => simp
  | some tree =>
      have hdoc : point ∈ tree → point.1 ∈ s.core.docs := s.core.bkd_held field tree htree point
      rw [mem_live, Bool.eq_false_iff, Ne, is_deleted_iff]
      unfold deleted
      match s.deleted_docs with
      | none =>
          grind
      | some deleted =>
          -- a point of the tree is in the range of the segment
          grind [covers_iff, docs_range]

end SegmentReader

end Laurus
