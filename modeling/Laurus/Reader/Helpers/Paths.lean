import Laurus.Common.Owner
import Laurus.Reader.Helpers.MergedPostings
import Laurus.Reader.Helpers.Segment
import Laurus.Reader.Helpers.Terms
import Laurus.Reader.Model.IndexReader

/-!
# The paths of a reader, one by one

No two segments hold a document live (`Apart SegmentReader.live`), and
`copy_of` is a document's live copy. Each path is shown to answer with it: the
searches for a first answer by `findSome_copy`, the batch turn by turn, the
votes and the merges by what they count and collect.
-/

namespace Laurus

namespace InvertedIndexReader

open SegmentReader (live)

variable {D F P : Type} {segments : List (SegmentReader D F P)} {s : SegmentReader D F P}
  {d : ℕ} {field term : String}

/-- The live copy of a document. -/
def copy_of (segments : List (SegmentReader D F P)) (d : ℕ) : Option (DocCopy D F P) :=
  (owner live segments d).map fun s => s.copy d

theorem copy_of_isSome : (copy_of segments d).isSome ↔ d ∈ owned live segments := by
  rw [copy_of, Option.isSome_map, owner_isSome]

/-- **A search for the first answer gives the copy's**, where a segment answers
for a live document only, and with its copy. -/
theorem findSome_copy {β : Type*} (h : Apart live segments)
    {answer : SegmentReader D F P → Option β} {get : DocCopy D F P → Option β}
    (hlive : ∀ s ∈ segments, (answer s).isSome → d ∈ s.live)
    (hget : ∀ s ∈ segments, d ∈ s.live → answer s = get (s.copy d)) :
    segments.findSome? answer = (copy_of segments d).bind get := by
  rw [h.findSome_eq hlive, copy_of]
  match howner : owner live segments d with
  | none => rfl
  | some s => exact hget s (owner_mem howner) (owner_live howner)

/-! ## Documents, values and lengths -/

theorem document_eq (h : Apart live segments) (d : ℕ) :
    (from_segment_readers segments).document d =
      some ((copy_of segments d).map DocCopy.document) := by
  refine congrArg some ?_
  rw [Option.map_eq_bind]
  refine findSome_copy h (fun s _ hsome => ?_) fun s _ hlive => ?_
  · rw [s.document_eq] at hsome
    grind
  · rw [s.document_eq, if_pos hlive]
    rfl

theorem document_fields_eq (h : Apart live segments) (d : ℕ) (field_names : List String) :
    (from_segment_readers segments).document_fields d field_names =
      some ((copy_of segments d).map fun c => c.document.restrict field_names) := by
  refine congrArg some ?_
  rw [Option.map_eq_bind]
  refine findSome_copy h (fun s _ hsome => ?_) fun s _ hlive => ?_
  · rw [s.document_fields_eq, Option.isSome_map, s.document_eq] at hsome
    grind
  · rw [s.document_fields_eq, s.document_eq, if_pos hlive]
    rfl

theorem get_doc_value_eq (h : Apart live segments) (field : String) (d : ℕ) :
    (from_segment_readers segments).get_doc_value field d =
      (copy_of segments d).bind fun c => (c.value field).join :=
  findSome_copy h (fun _ _ => SegmentReader.live_of_get_doc_value)
    fun _ _ => SegmentReader.get_doc_value_of_live

theorem segment_ranges_eq : (from_segment_readers segments).segment_ranges =
    segments.map fun s => ⟨s.min_doc_id, s.max_doc_id, s⟩ := by
  unfold segment_ranges from_segment_readers
  refine List.ext_getElem? fun i => ?_
  rw [List.getElem?_mapIdx, List.getElem?_map, List.getElem?_map]
  match segments[i]? with
  | none => rfl
  | some s => rfl

theorem field_length_eq (h : Apart live segments) (d : ℕ) (field : String) :
    (from_segment_readers segments).field_length d field =
      some ((copy_of segments d).bind fun c => c.length field) := by
  refine congrArg some ?_
  unfold segment_field_length
  rw [segment_ranges_eq, List.findSome?_map]
  refine findSome_copy h (fun s _ hsome => ?_) fun s _ hlive => ?_
  · simp only [Function.comp] at hsome
    grind [SegmentReader.live_of_field_length]
  · have := SegmentReader.docs_range (SegmentReader.mem_live.1 hlive).1
    simp only [Function.comp]
    rw [if_neg (by omega), SegmentReader.field_length_of_live hlive]

theorem findSome_filterMap {α β γ : Type*} {f : α → Option β} {g : β → Option γ} (l : List α) :
    (l.filterMap f).findSome? g = l.findSome? fun a => (f a).bind g := by
  induction l with
  | nil => rfl
  | cons a l ih =>
      grind

theorem lengths_get (s : SegmentReader D F P) (field : String) (d : ℕ) :
    ((s.core.norms.column field).bind fun column => SegmentLengths.get
        { min_doc_id := s.min_doc_id, max_doc_id := s.max_doc_id
          deletions := s.deleted_docs, norms := s.core.norms, column } d) =
      if d < s.min_doc_id ∨ s.max_doc_id < d then none else s.field_length d field := by
  unfold SegmentReader.field_length NormsReader.field_length SegmentLengths.get
  match s.core.norms.column field with
  | none => simp
  | some column =>
      unfold SegmentReader.is_deleted
      grind

theorem field_lengths_eq (h : Apart live segments) (field : String) :
    ∃ get, (from_segment_readers segments).field_lengths field = some get ∧
      ∀ d, get d = (copy_of segments d).bind fun c => c.length field := by
  refine ⟨_, rfl, fun d => ?_⟩
  have hlength := field_length_eq h d field
  unfold field_length segment_field_length at hlength
  rw [← Option.some.inj hlength]
  unfold segment_lengths
  rw [findSome_filterMap, segment_ranges_eq, List.findSome?_map, List.findSome?_map]
  refine congrArg (List.findSome? · segments) (funext fun s => ?_)
  simp only [Function.comp]
  rw [← lengths_get, Option.map_eq_bind, Option.bind_assoc]
  rfl

/-! ## Batches -/

/-- The answer that a copy's column gives. -/
def lookup (copy : Option (DocCopy D F P)) (field : String) : DocValueLookup F :=
  match copy.bind fun c => c.value field with
  | none => .unknown
  | some none => .absent
  | some (some v) => .value v

/-- One segment's turn for one document. -/
def batch_turn (field : String) (d : ℕ) (answer : DocValueLookup F) (s : SegmentReader D F P) :
    DocValueLookup F :=
  match s.doc_values_column field with
  | none => answer
  | some column => answer_doc_value ⟨s.min_doc_id, s.max_doc_id, s⟩ column d answer

theorem doc_values_batch_eq (field : String) (doc_ids : List ℕ) :
    (from_segment_readers segments).doc_values_batch field doc_ids =
      some (doc_ids.map fun d => segments.foldl (batch_turn field d) .unknown) := by
  have hfold : ∀ (segments : List (SegmentReader D F P)) (answer : ℕ → DocValueLookup F),
      (segments.map fun s => (⟨s.min_doc_id, s.max_doc_id, s⟩ : SegmentRange D F P)).foldl
        (answer_doc_values field doc_ids) (doc_ids.map answer) =
      doc_ids.map fun d => segments.foldl (batch_turn field d) (answer d) := by
    intro segments
    induction segments with
    | nil => exact fun _ => rfl
    | cons s segments ih =>
        intro answer
        rw [List.map_cons, List.foldl_cons]
        refine Eq.trans (congrArg (List.foldl (answer_doc_values field doc_ids) · _) ?_)
          (ih fun d => batch_turn field d (answer d) s)
        unfold answer_doc_values batch_turn
        match s.doc_values_column field with
        | none => rfl
        | some column =>
            show List.zipWith _ doc_ids (doc_ids.map answer) = _
            rw [List.zipWith_map_right, List.zipWith_self]
  refine congrArg some ?_
  rw [segment_ranges_eq]
  exact hfold segments fun _ => .unknown

theorem batch_turn_answered {answer : DocValueLookup F} (h : answer ≠ .unknown) :
    batch_turn field d answer s = answer := by
  unfold batch_turn answer_doc_value
  grind

theorem batch_turn_of_notMem (h : d ∉ s.live) : batch_turn field d .unknown s = .unknown := by
  unfold batch_turn answer_doc_value
  split
  · rfl
  · rename_i column hcolumn
    simp only
    split
    · rfl
    · rename_i hrange
      split
      · rfl
      · rename_i hdeleted
        have hdoc : d ∉ s.core.docs := fun hdoc =>
          h (SegmentReader.mem_live.2 ⟨hdoc, Bool.not_eq_true _ ▸ hdeleted⟩)
        match hvalue : column d with
        | some v =>
            refine absurd (s.core.values_held field column d hcolumn ?_) hdoc
            rw [hvalue]
            rfl
        | none =>
            refine if_neg fun hholds => hdoc ?_
            exact SegmentReader.mem_of_holds (SegmentReader.covers_iff.2 (not_not.1 hrange)) hholds

/-- **The segment of the live copy answers with it**; that there is no value it
says only where it knows the document to be held. -/
theorem batch_turn_of_mem (h : d ∈ s.live) :
    batch_turn field d .unknown s = lookup (some (s.copy d)) field ∨
      batch_turn field d .unknown s = .unknown ∧ lookup (some (s.copy d)) field = .absent ∧
        s.membership = .unknown := by
  obtain ⟨hdoc, hdeleted⟩ := SegmentReader.mem_live.1 h
  have hrange := SegmentReader.docs_range hdoc
  have hcopy : lookup (some (s.copy d)) field =
      match (s.core.doc_values field).map fun column => column d with
      | none => .unknown
      | some none => .absent
      | some (some v) => .value v := rfl
  unfold batch_turn answer_doc_value SegmentReader.doc_values_column
  rw [hcopy]
  match s.core.doc_values field with
  | none => exact Or.inl rfl
  | some column =>
      simp only [Option.map_some]
      grind [SegmentReader.holds_eq, SegmentReader.covers_iff]

theorem batch_of_notMem {answer : DocValueLookup F} (h : ∀ s ∈ segments, d ∉ s.live) :
    segments.foldl (batch_turn field d) answer = answer := by
  induction segments with
  | nil => rfl
  | cons s segments ih =>
      have hturn : batch_turn field d answer s = answer := by
        grind [batch_turn_of_notMem, batch_turn_answered]
      grind

/-- **A batch answers with the live copies' values.** -/
theorem batch_eq (h : Apart live segments) (field : String) (d : ℕ) :
    segments.foldl (batch_turn field d) .unknown = lookup (copy_of segments d) field ∨
      segments.foldl (batch_turn field d) .unknown = .unknown ∧
        lookup (copy_of segments d) field = .absent ∧
        ∃ s ∈ segments, d ∈ s.live ∧ s.membership = .unknown := by
  induction segments with
  | nil => exact Or.inl rfl
  | cons s segments ih =>
      rw [List.foldl_cons, copy_of]
      by_cases hlive : d ∈ s.live
      · grind [owner_cons_of_mem, batch_of_notMem, Apart.notMem_of_cons, batch_turn_of_mem]
      · rw [owner_cons_of_notMem hlive, batch_turn_of_notMem hlive]
        refine (ih h.tail).imp_right ?_
        rintro ⟨hturn, habsent, s', hs', hmem⟩
        exact ⟨hturn, habsent, s', List.mem_cons_of_mem _ hs', hmem⟩

/-! ## Deletions and counts -/

/-- A vote: no segment is known to hold the document live, and one that may
hold it marks it. -/
theorem vote_iff {covering : List (SegmentReader D F P)} : ∀ {deleted : Bool},
    vote d deleted covering = true ↔
      (∀ s ∈ covering, s.is_deleted d = false → s.membership.holds d ≠ some true) ∧
        (deleted = true ∨
          ∃ s ∈ covering, s.is_deleted d = true ∧ s.membership.holds d ≠ some false) := by
  induction covering with
  | nil => simp [vote]
  | cons s covering ih =>
      unfold vote
      rw [List.forall_mem_cons, List.exists_mem_cons_iff]
      match hdeleted : s.is_deleted d, hholds : s.membership.holds d with
      | false, some true => simp
      | true, some true => simp [ih]
      | true, none => simp [ih]
      | false, some false => simp [ih]
      | false, none => simp [ih]
      | true, some false => simp [ih]

theorem is_deleted_iff : (from_segment_readers segments).is_deleted d = true ↔
    (∀ s ∈ segments, s.covers d = true → s.is_deleted d = false →
      s.membership.holds d ≠ some true) ∧
      ∃ s ∈ segments, s.covers d = true ∧ s.is_deleted d = true ∧
        s.membership.holds d ≠ some false := by
  have hvote := @vote_iff _ _ _ d (segments.filter fun s => s.covers d) false
  unfold is_deleted from_segment_readers
  grind

/-- **A document that is held but by no segment live is deleted.** -/
theorem is_deleted_of_dead (hs : s ∈ segments) (hdoc : d ∈ s.core.docs)
    (hnone : copy_of segments d = none) :
    (from_segment_readers segments).is_deleted d = true := by
  have hdead : ∀ s ∈ segments, d ∉ s.live := owner_eq_none.1 (Option.map_eq_none_iff.1 hnone)
  have hmarked : ∀ s ∈ segments, d ∈ s.core.docs → s.is_deleted d = true := by
    intro s hs hdoc
    by_contra hnot
    exact hdead s hs (SegmentReader.mem_live.2 ⟨hdoc, Bool.not_eq_true _ ▸ hnot⟩)
  have hcovers := SegmentReader.covers_iff.2 (SegmentReader.docs_range hdoc)
  rw [is_deleted_iff]
  refine ⟨fun s' hs' hcovers' hbit hholds => ?_, s, hs, hcovers, hmarked s hs hdoc, ?_⟩
  · grind [SegmentReader.mem_of_holds]
  · by_cases hknown : s.membership = .unknown
    · rw [hknown]
      simp [Membership.holds]
    · rw [SegmentReader.holds_eq hknown hcovers, decide_eq_true hdoc]
      simp

/-- **And no other is**, where the segments that cover it know what they hold. -/
theorem dead_of_is_deleted
    (hknown : ∀ s ∈ segments, s.covers d = true → s.membership ≠ .unknown)
    (h : (from_segment_readers segments).is_deleted d = true) :
    (∃ s ∈ segments, d ∈ s.core.docs) ∧ copy_of segments d = none := by
  obtain ⟨hlive, s, hs, hcovers, -, hholds⟩ := is_deleted_iff.1 h
  refine ⟨⟨s, hs, ?_⟩, ?_⟩
  · grind [SegmentReader.holds_eq]
  · refine Option.map_eq_none_iff.2 (owner_eq_none.2 fun s hs hmem => ?_)
    grind [SegmentReader.mem_live, SegmentReader.covers_iff, SegmentReader.docs_range,
      SegmentReader.holds_eq]

theorem live_doc_ids_eq : (from_segment_readers segments).live_doc_ids =
    some ((owned live segments).sort (· ≤ ·)) := by
  have hfold : ∀ (segments : List (SegmentReader D F P)) (found : Finset ℕ),
      segments.foldl (fun found s => found ∪ s.live_doc_ids) found =
        found ∪ owned live segments := by
    intro segments
    induction segments with
    | nil => exact fun found => (Finset.union_empty found).symm
    | cons s segments ih =>
        intro found
        rw [List.foldl_cons, ih, SegmentReader.live_doc_ids_eq, Finset.union_assoc]
        rfl
  exact congrArg (fun found => some (Finset.sort found (· ≤ ·)))
    ((hfold segments ∅).trans (Finset.empty_union _))

/-- **The count is that of the live documents**, where all memberships are
known. -/
theorem doc_count_eq (h : Apart live segments) (hknown : ∀ s ∈ segments, s.membership ≠ .unknown) :
    (from_segment_readers segments).doc_count = (owned live segments).card := by
  rw [h.card_owned]
  refine congrArg List.sum (List.map_congr_left fun s hs => ?_)
  exact SegmentReader.doc_count_of_known (hknown s hs)

/-- **Otherwise there are no more of them.** -/
theorem card_le_doc_count (h : Apart live segments)
    (hwidth : ∀ s ∈ segments, s.membership = .unknown →
      (range_width s.min_doc_id s.max_doc_id).isSome) :
    (owned live segments).card ≤ (from_segment_readers segments).doc_count := by
  rw [h.card_owned]
  exact List.sum_le_sum fun s hs => SegmentReader.card_live_le (hwidth s hs)

/-! ## Postings, points and terms -/

theorem filter_listed (h : Apart live segments) (field term : String) (d : ℕ) :
    (segments.flatMap fun s => s.listed field term).filter (fun entry => entry.doc_id = d) =
      ((copy_of segments d).bind fun c => c.posting field term).toList := by
  rw [h.filter_flatMap_eq fun s _ => SegmentReader.listed_live, copy_of]
  match howner : owner live segments d with
  | none => rfl
  | some s => exact SegmentReader.listed_of_live (owner_live howner)

theorem flatten_postings (segments : List (SegmentReader D F P)) (field term : String) :
    (segments.filterMap fun s => s.postings field term).flatten =
      segments.flatMap fun s => s.listed field term := by
  induction segments with
  | nil => rfl
  | cons s segments ih =>
      rw [List.flatMap_cons, ← ih, List.filterMap_cons]
      unfold SegmentReader.listed
      grind

theorem postings_perm (segments : List (SegmentReader D F P)) (field term : String) :
    ∃ found, (from_segment_readers segments).postings field term = some found ∧
      (found.getD []).Perm (segments.flatMap fun s => s.listed field term) ∧
      (found.getD []).Pairwise fun a b => a.doc_id ≤ b.doc_id := by
  have hascending : ∀ entries ∈ segments.filterMap fun s => s.postings field term,
      entries.Pairwise fun a b => a.doc_id < b.doc_id := by
    intro entries hentries
    obtain ⟨s, -, hpostings⟩ := List.mem_filterMap.1 hentries
    have := s.listed_ascending field term
    rwa [SegmentReader.listed, hpostings] at this
  rw [← flatten_postings]
  unfold postings from_segment_readers
  dsimp only
  generalize segments.filterMap (fun s => s.postings field term) = iterators at hascending ⊢
  rcases iterators with _ | ⟨first, _ | ⟨second, iterators⟩⟩
  · exact ⟨none, rfl, List.Perm.refl _, List.Pairwise.nil⟩
  · refine ⟨some first, rfl, ?_, ?_⟩
    · simp
    · exact (hascending first List.mem_cons_self).imp Nat.le_of_lt
  · refine ⟨_, rfl, MergedPostingIterator.drain_spec hascending ?_⟩
    rw [List.length_flatten]

/-- **The postings of a term are those of the live copies**, each document once
and in order. -/
theorem postings_spec (h : Apart live segments) (field term : String) :
    ∃ found, (from_segment_readers segments).postings field term = some found ∧
      ((found.getD []).Pairwise fun a b => a.doc_id < b.doc_id) ∧
      ∀ d, (found.getD []).filter (fun entry => entry.doc_id = d) =
        ((copy_of segments d).bind fun c => c.posting field term).toList := by
  obtain ⟨found, hfound, hperm, hsorted⟩ := postings_perm segments field term
  have hat : ∀ d, (found.getD []).filter (fun entry => entry.doc_id = d) =
      ((copy_of segments d).bind fun c => c.posting field term).toList := by
    intro d
    have hfilter := hperm.filter fun entry => entry.doc_id = d
    rw [filter_listed h] at hfilter
    -- there is one entry at most, so the order is the same
    match hcopy : (copy_of segments d).bind fun c => c.posting field term with
    | none =>
        rw [hcopy] at hfilter
        exact hfilter.eq_nil
    | some entry =>
        rw [hcopy] at hfilter
        exact hfilter.eq_singleton
  refine ⟨found, hfound, ?_, hat⟩
  have hnodup : ((found.getD []).map PostingEntry.doc_id).Nodup := by
    rw [List.nodup_iff_count_le_one]
    intro d
    rw [List.count_eq_countP, List.countP_map, List.countP_eq_length_filter]
    have hlen := congrArg List.length (hat d)
    have hone : ((copy_of segments d).bind fun c => c.posting field term).toList.length ≤ 1 := by
      simp
    rw [← hlen] at hone
    exact hone
  refine (hsorted.and (List.pairwise_map.1 hnodup)).imp fun hand => ?_
  omega

theorem mem_trees {hits : P → Bool} (h : Apart live segments) :
    (∃ s ∈ segments, ∃ point ∈ s.points field, point.1 = d ∧ hits point.2 = true) ↔
      ∃ c, copy_of segments d = some c ∧ ∃ p ∈ c.points field, hits p = true := by
  constructor
  · rintro ⟨s, hs, point, hpoint, rfl, hhits⟩
    obtain ⟨hlive, hcopy⟩ := SegmentReader.mem_points.1 hpoint
    refine ⟨s.copy point.1, ?_, point.2, hcopy, hhits⟩
    rw [copy_of, h.owner_eq hs hlive, Option.map_some]
  · rintro ⟨c, hcopy, p, hp, hhits⟩
    obtain ⟨s, howner, rfl⟩ := Option.map_eq_some_iff.1 hcopy
    exact ⟨s, owner_mem howner, (d, p), SegmentReader.mem_points.2 ⟨owner_live howner, hp⟩, rfl,
      hhits⟩

/-- **A range search finds the documents whose live copy has a point that
matches**, in order and each once. -/
theorem range_search_spec (h : Apart live segments) (field : String) (hits : P → Bool) :
    ∃ ids, (from_segment_readers segments).range_search field hits = some ids ∧
      ids.Pairwise (· < ·) ∧
      ∀ d, d ∈ ids ↔ ∃ c, copy_of segments d = some c ∧ ∃ p ∈ c.points field, hits p = true := by
  have hmem : ∀ point, point ∈ (segments.filterMap fun s =>
      s.get_filtered_bkd_tree field).flatten ↔ ∃ s ∈ segments, point ∈ s.points field := by
    intro point
    rw [List.mem_flatten]
    constructor
    · grind [SegmentReader.points]
    · rintro ⟨s, hs, hpoint⟩
      unfold SegmentReader.points at hpoint
      match htree : s.get_filtered_bkd_tree field with
      | none =>
          grind
      | some tree =>
          grind
  have hids : (from_segment_readers segments).range_search field hits =
      some ((((segments.filterMap fun s => s.get_filtered_bkd_tree field).flatten.filter
        fun point => hits point.2).map Prod.fst).toFinset.sort (· ≤ ·)) := by
    unfold range_search get_bkd_tree from_segment_readers
    dsimp only
    generalize segments.filterMap (fun s => s.get_filtered_bkd_tree field) = trees
    match trees with
    | [] =>
        show some [] = some (Finset.sort ∅ (· ≤ ·))
        rw [Finset.sort_empty]
    | tree :: trees => rfl
  refine ⟨_, hids, (Finset.sortedLT_sort _).pairwise, fun d => ?_⟩
  rw [Finset.mem_sort, List.mem_toFinset, List.mem_map, ← mem_trees h]
  constructor
  · grind
  · rintro ⟨s, hs, point, hpoint, rfl, hhits⟩
    grind

/-- **The terms of a field are those of the dictionaries**, in order and each
once; a dictionary keeps the terms of deleted copies. -/
theorem terms_spec (segments : List (SegmentReader D F P)) (field : String) :
    ((((from_segment_readers segments).terms field).getD []).Pairwise
      fun a b => a.term < b.term) ∧
      ∀ term, (∃ t ∈ ((from_segment_readers segments).terms field).getD [], t.term = term) ↔
        ∃ s ∈ segments, s.has_key (SegmentReader.term_key field term) = true := by
  have hcursors : ∀ term, (∃ c ∈ segments.filterMap (fun s => s.core.dictionary.map
      fun dict => InvertedIndexTermsEnum.new field dict (list_counts s)),
        ∃ t ∈ c.left, t.term = term) ↔
      ∃ s ∈ segments, s.has_key (SegmentReader.term_key field term) = true := by
    intro term
    constructor
    · rintro ⟨c, hc, ht⟩
      obtain ⟨s, hs, hmap⟩ := List.mem_filterMap.1 hc
      obtain ⟨dict, hdict, rfl⟩ := Option.map_eq_some_iff.1 hmap
      refine ⟨s, hs, ?_⟩
      rw [SegmentReader.has_key, hdict, List.contains_iff_mem]
      exact InvertedIndexTermsEnum.mem_left_new.1 ht
    · rintro ⟨s, hs, hkey⟩
      unfold SegmentReader.has_key at hkey
      match hdict : s.core.dictionary with
      | none =>
          rw [hdict] at hkey
          cases hkey
      | some dict =>
          rw [hdict, List.contains_iff_mem] at hkey
          exact ⟨_, List.mem_filterMap.2 ⟨s, hs, by rw [hdict]; rfl⟩,
            InvertedIndexTermsEnum.mem_left_new.2 hkey⟩
  have hlen : ∀ cursors : List InvertedIndexTermsEnum,
      (cursors.map fun c => c.left.length).sum ≤
        (cursors.map fun c => c.dict.sorted_terms.length).sum + 1 := fun cursors =>
    Nat.le_succ_of_le (List.sum_le_sum fun c _ => c.left_length_le)
  unfold terms from_segment_readers
  dsimp only
  simp only [← hcursors]
  generalize segments.filterMap (fun s => s.core.dictionary.map
    fun dict => InvertedIndexTermsEnum.new field dict (list_counts s)) = cursors
  match cursors with
  | [] => exact ⟨List.Pairwise.nil, by simp⟩
  | [c] =>
      grind [InvertedIndexTermsEnum.drain_eq, InvertedIndexTermsEnum.left_ascending]
  | c :: c' :: cursors => exact MergedTermsEnum.drain_new (hlen _)

end InvertedIndexReader

end Laurus
