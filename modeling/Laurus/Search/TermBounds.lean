import Laurus.Common.Owner
import Laurus.Posting.Packer
import Laurus.Search.Helpers.TermBounds

/-!
# The bounds of a term hold

A `FlushedSegment` is what a flush wrote and a reader loaded, some of its
documents deleted since. Whatever the segments and their averages, the bounds
that a scorer is given are above the component of every live posting, where
the name of the field has no colon: the flush takes the field of a key to end
at the first.
-/

namespace Laurus

open Laurus.Comp

/-- A segment with what it was flushed from. -/
structure FlushedSegment (𝕜 : Type) [Field 𝕜] [LinearOrder 𝕜] (packer : BitPacker)
    (crc32 : Bytes → UInt32) extends ScoredSegment 𝕜 where
  buffered_docs : List (UInt64 × FieldLengths)
  inverted_index : TermPostingIndex
  recordable : Recordable buffered_docs
  ascending : ∀ key posting_list, inverted_index.get_posting_list key = some posting_list →
    PostingList.Ascending posting_list.postings
  /-- A posting is of a document that is flushed with it. -/
  held : ∀ key posting_list, inverted_index.get_posting_list key = some posting_list →
    ∀ posting ∈ posting_list.postings, posting.doc_id ∈ buffered_docs.map Prod.fst
  covered : ∀ doc ∈ buffered_docs, min_doc_id ≤ doc.1 ∧ doc.1 ≤ max_doc_id
  dictionary_written : ∃ w, InvertedIndexWriter.write_inverted_index packer
    (NormsBuilder.from_buffered buffered_docs) inverted_index StructWriter.new = .ok (dictionary, w)
  norms_loaded : ∃ file r, (NormsBuilder.from_buffered buffered_docs).file crc32 = .ok file ∧
    LoadedNorms.load_file crc32 (StructReader.new file) = .ok (norms, r)

namespace FlushedSegment

open NormsBuilder LoadedNorms InvertedIndexWriter

variable {𝕜 : Type} [Field 𝕜] [LinearOrder 𝕜] {packer : BitPacker} {crc32 : Bytes → UInt32}
  {segments : List (FlushedSegment 𝕜 packer crc32)} {s : FlushedSegment 𝕜 packer crc32}
  {field term : String} {posting : Posting}

/-- The documents that are not deleted. -/
def live (s : FlushedSegment 𝕜 packer crc32) : Finset UInt64 :=
  (s.buffered_docs.map Prod.fst).toFinset.filter fun d => s.is_deleted d = false

theorem mem_live {d : UInt64} :
    d ∈ s.live ↔ d ∈ s.buffered_docs.map Prod.fst ∧ s.is_deleted d = false := by
  rw [live, Finset.mem_filter, List.mem_toFinset]

/-- What the reader has of the segments. -/
def scored (segments : List (FlushedSegment 𝕜 packer crc32)) : List (ScoredSegment 𝕜) :=
  segments.map toScoredSegment

theorem norms_eq (s : FlushedSegment 𝕜 packer crc32) :
    s.norms = (from_buffered s.buffered_docs).loaded := by
  obtain ⟨file, r, hfile, hload⟩ := s.norms_loaded
  obtain ⟨file', r', hfile', hload', -⟩ := load_file_eq (writable s.recordable) crc32
  grind

theorem field_stats_eq (s : FlushedSegment 𝕜 packer crc32) (field : String) :
    s.field_stats field = recorded_stats 𝕜 s.buffered_docs field := by
  rw [ScoredSegment.field_stats, s.norms_eq, loaded_field_stats s.recordable]

/-! ## Lengths -/

/-- What one segment answers for a document. -/
def answer (s : FlushedSegment 𝕜 packer crc32) (field : String) (d : UInt64) : Option UInt32 :=
  (s.norms.column field).bind fun column => s.get_length column d

theorem answer_eq (s : FlushedSegment 𝕜 packer crc32) (field : String) (d : UInt64) :
    s.answer field d =
      if d ∈ s.live then (recorded s.buffered_docs field d).map round_down else none := by
  have hlength : ((s.norms.column field).bind fun column => s.norms.column_length column d) =
      (recorded s.buffered_docs field d).map round_down := by
    rw [← loaded_field_length s.recordable, ← s.norms_eq]
    rfl
  have hnone : d ∉ s.buffered_docs.map Prod.fst → recorded s.buffered_docs field d = none := by
    intro hnot
    rw [← Option.not_isSome_iff_eq_none]
    exact fun hsome => hnot (mem_doc_ids.1 (mem_doc_ids_of_recorded hsome))
  rw [← hlength]
  by_cases hlive : d ∈ s.live
  · obtain ⟨hmem, hdeleted⟩ := mem_live.1 hlive
    obtain ⟨doc, hdoc, rfl⟩ := List.mem_map.1 hmem
    obtain ⟨hmin, hmax⟩ := s.covered doc hdoc
    have hrange : ¬ (doc.1 < s.min_doc_id ∨ s.max_doc_id < doc.1) := by grind
    rw [if_pos hlive, answer]
    refine Option.bind_congr fun column _ => ?_
    rw [ScoredSegment.get_length, if_neg hrange, hdeleted, if_neg Bool.false_ne_true]
  · rw [if_neg hlive, answer]
    rw [mem_live, not_and_or] at hlive
    rcases hcolumn : s.norms.column field with _ | column
    · rfl
    grind [ScoredSegment.get_length]

/-- **The length of a live document is the one recorded in its segment**,
rounded down. -/
theorem field_lengths_eq (field : String) (h : Apart live segments) (hs : s ∈ segments)
    {d : UInt64} (hd : d ∈ s.live) : ScoredSegments.field_lengths (scored segments) field d.toNat =
      (recorded s.buffered_docs field d).map fun len => (round_down len).toNat := by
  have hfirst : (segments.findSome? fun s => s.answer field d) = s.answer field d := by
    rw [h.findSome_eq (k := d), h.owner_eq hs hd, Option.bind_some]
    intro s' _ hsome
    rw [s'.answer_eq] at hsome
    grind
  rw [ScoredSegments.field_lengths, UInt64.ofNat_toNat, scored, List.findSome?_map]
  show ((segments.findSome? fun s => s.answer field d).map UInt32.toNat) = _
  rw [hfirst, s.answer_eq, if_pos hd, Option.map_map]
  rfl

/-! ## Tables -/

theorem dictionary_spec (s : FlushedSegment 𝕜 packer crc32) (key : String) :
    (s.inverted_index.get_posting_list key = none → s.dictionary.lookup key = none) ∧
    ∀ posting_list, s.inverted_index.get_posting_list key = some posting_list →
      ∃ info, s.dictionary.lookup key = some info ∧
        Listed (from_buffered s.buffered_docs) key posting_list info := by
  obtain ⟨w, hw⟩ := s.dictionary_written
  grind [write_inverted_index_spec]

/-- The bounds that a segment's dictionary has of a list, in a field without
a colon. -/
theorem info_eq (hfield : ':' ∉ field.toList) {posting_list : PostingList}
    (hlist : s.inverted_index.get_posting_list (SegmentReader.term_key field term) =
      some posting_list) :
    let norms := from_buffered s.buffered_docs
    ∃ info, s.term_info field term = some info ∧
      info.max_score_factor =
        max_factor norms field (norms.avg_length 𝕜 field) posting_list.postings ∧
      info.block_max = (chunks BLOCK_SIZE posting_list.postings).map
        (block_bound norms field (norms.avg_length 𝕜 field)) := by
  obtain ⟨info, hinfo, hlisted⟩ := (s.dictionary_spec _).2 posting_list hlist
  have hbounds := hlisted.bounds
  rw [term_bounds_eq hfield, Prod.mk.injEq] at hbounds
  exact ⟨info, hinfo, hbounds.1, hbounds.2⟩

/-! ## Averages -/

variable [IsStrictOrderedRing 𝕜]

theorem recorded_stats_pos {docs : List (UInt64 × FieldLengths)} {stats : NormStats 𝕜}
    (h : recorded_stats 𝕜 docs field = some stats) : 0 < stats.doc_count ∧ 0 ≤ stats.avg_length := by
  rw [recorded_stats] at h
  by_cases hnil : recorded_lengths docs field = []
  · rw [if_pos hnil] at h
    cases h
  · rw [if_neg hnil] at h
    cases h
    exact ⟨List.length_pos_iff.2 hnil, div_nonneg (Nat.cast_nonneg _) (Nat.cast_nonneg _)⟩

theorem global_avg {global : NormStats 𝕜}
    (h : ScoredSegments.field_stats (scored segments) field = some global) :
    0 ≤ global.avg_length ∧ ∀ s ∈ segments, ∀ stats, s.field_stats field = some stats →
      global.avg_length = 0 → stats.avg_length = 0 := by
  have hof : ∀ stats ∈ ScoredSegments.stats_of (scored segments) field,
      0 < stats.doc_count ∧ 0 ≤ stats.avg_length := by
    intro stats hstats
    obtain ⟨_, hmem, hsome⟩ := List.mem_filterMap.1 hstats
    obtain ⟨s, -, rfl⟩ := List.mem_map.1 hmem
    rw [s.field_stats_eq] at hsome
    exact recorded_stats_pos hsome
  obtain ⟨hpos, havg⟩ := ScoredSegments.field_stats_avg h fun stats hstats => (hof stats hstats).1
  have hterms : ∀ x ∈ (ScoredSegments.stats_of (scored segments) field).map
      (fun stats => stats.avg_length * (stats.doc_count : 𝕜)), 0 ≤ x := by
    grind [mul_nonneg]
  have hsum := List.sum_nonneg hterms
  refine ⟨by rw [havg]; exact div_nonneg hsum (Nat.cast_nonneg _), fun s hs stats hstats hzero => ?_⟩
  have hcount : (((ScoredSegments.stats_of (scored segments) field).map
      NormStats.doc_count).sum : 𝕜) ≠ 0 := Nat.cast_ne_zero.2 hpos.ne'
  rw [havg, div_eq_zero_iff, or_iff_left hcount] at hzero
  have hmem : stats ∈ ScoredSegments.stats_of (scored segments) field :=
    List.mem_filterMap.2 ⟨_, List.mem_map_of_mem hs, hstats⟩
  -- a sum of no negative terms is zero when each is
  have hle := List.single_le_sum hterms _ (List.mem_map_of_mem hmem)
  rw [hzero] at hle
  have hdocs : (0 : 𝕜) < stats.doc_count := Nat.cast_pos.2 (hof stats hmem).1
  have hstats_avg := (hof stats hmem).2
  have hzero' : stats.avg_length * (stats.doc_count : 𝕜) = 0 :=
    le_antisymm hle (mul_nonneg hstats_avg hdocs.le)
  grind

/-! ## One posting -/

/-- **The ratio of the flush is not above the ratio of the query**: the
average of the query is not above that of the segment. -/
theorem ratio_le (scorer : BM25Scorer 𝕜) {docs : List (UInt64 × FieldLengths)} {d : UInt64}
    (havg : 0 ≤ scorer.avg_field_length)
    (hle : ∀ stats, recorded_stats 𝕜 docs field = some stats →
      scorer.avg_field_length ≤ stats.avg_length ∧
        (scorer.avg_field_length = 0 → stats.avg_length = 0))
    (hlen : scorer.field_len d.toNat none = ((recorded docs field d).map fun len =>
      ((round_down len).toNat : 𝕜)).getD scorer.avg_field_length) :
    len_ratio ((((from_buffered docs).decoded_length d field).getD 0).toNat : 𝕜)
        ((from_buffered docs).avg_length 𝕜 field) ≤
      if scorer.avg_field_length = 0 then 1
      else scorer.field_len d.toNat none / scorer.avg_field_length := by
  rw [avg_length_eq, decoded_length_eq, hlen, len_ratio]
  rcases hstats : recorded_stats 𝕜 docs field with _ | stats
  · -- no document has a length
    have hnil : recorded_lengths docs field = [] := by
      by_contra hne
      rw [recorded_stats, if_neg hne] at hstats
      cases hstats
    rw [recorded_of_none (lookup_eq_none hnil), Option.map_none, Option.getD_none,
      if_neg (lt_irrefl _)]
    grind
  obtain ⟨hle, hzero⟩ := hle stats hstats
  rw [Option.map_some, Option.getD_some]
  by_cases havg_zero : scorer.avg_field_length = 0
  · grind
  · have hpos : 0 < scorer.avg_field_length := lt_of_le_of_ne havg (Ne.symm havg_zero)
    rw [if_neg havg_zero, if_pos (hpos.trans_le hle)]
    rcases recorded docs field d with _ | len
    · rw [Option.map_none, Option.map_none, Option.getD_none, Option.getD_none, div_self havg_zero,
        show ((0 : UInt32).toNat : 𝕜) = 0 from Nat.cast_zero, zero_div]
      exact zero_le_one
    · exact div_le_div_of_nonneg_left (Nat.cast_nonneg _) hpos hle

/-- A posting of a term that is not deleted. -/
def LivePosting (segments : List (FlushedSegment 𝕜 packer crc32)) (field term : String)
    (posting : Posting) : Prop :=
  ∃ s ∈ segments, ∃ posting_list,
    s.inverted_index.get_posting_list (SegmentReader.term_key field term) = some posting_list ∧
      posting ∈ posting_list.postings ∧ s.is_deleted posting.doc_id = false

/-- The bounds of a scorer hold of a posting: the one of the term, and that of
the first block that does not end before it. -/
structure Bounded (scorer : BM25Scorer 𝕜) (posting : Posting) : Prop where
  term_bound : scorer.component posting.doc_id.toNat posting.frequency.toNat ≤
    if 0 < scorer.max_score_factor then scorer.max_score_factor else scorer.k1 + 1
  block_bound : scorer.block_max ≠ [] → ∃ block,
    scorer.block_max.find? (fun b => posting.doc_id.toNat ≤ b.last_doc_id) = some block ∧
      scorer.component posting.doc_id.toNat posting.frequency.toNat ≤ block.max_factor

theorem component_le_ceiling {scorer : BM25Scorer 𝕜} (hk1 : scorer.k1 = K1) (hb : scorer.b = B)
    (havg : 0 ≤ scorer.avg_field_length) (d term_freq : ℕ) :
    scorer.component d term_freq ≤ scorer.k1 + 1 := by
  have hk : 0 ≤ scorer.k1 := by rw [hk1, K1]; norm_num
  grind [BM25Scorer.norm_factor_nonneg, B, BM25Scorer.component_le_of_nonneg]

theorem Bounded.of_unset {scorer : BM25Scorer 𝕜} (hk1 : scorer.k1 = K1) (hb : scorer.b = B)
    (havg : 0 ≤ scorer.avg_field_length) (hfactor : scorer.max_score_factor = 0)
    (hblocks : scorer.block_max = []) (posting : Posting) : Bounded scorer posting := by
  refine ⟨?_, fun hne => absurd hblocks hne⟩
  rw [hfactor, if_neg (lt_irrefl _)]
  exact component_le_ceiling hk1 hb havg _ _

/-- **The bounds hold of a live posting** in a field without a colon. -/
theorem bounded (hfield : ':' ∉ field.toList) (h : Apart live segments)
    (hposting : LivePosting segments field term posting) (doc_count : ℕ) (boost : 𝕜)
    (compute_idf : ℕ → ℕ → 𝕜) :
    Bounded (ScoredSegments.scorer (scored segments) field term doc_count boost compute_idf)
      posting := by
  obtain ⟨s, hs, posting_list, hlist, hmem, hkept⟩ := hposting
  have hlive : posting.doc_id ∈ s.live := mem_live.2 ⟨s.held _ _ hlist _ hmem, hkept⟩
  have hs' : s.toScoredSegment ∈ scored segments := List.mem_map_of_mem hs
  rcases hstats : ScoredSegments.field_stats (scored segments) field with _ | global
  · rw [ScoredSegments.scorer_of_none (Or.inr hstats)]
    exact Bounded.of_unset rfl rfl le_rfl rfl rfl posting
  rcases hreader : ScoredSegments.term_info (scored segments) field term with _ | reader_info
  · rw [ScoredSegments.scorer_of_none (Or.inl hreader)]
    exact Bounded.of_unset rfl rfl le_rfl rfl rfl posting
  rw [ScoredSegments.scorer_eq hreader hstats]
  set scorer := (BM25Scorer.with_block_max reader_info.doc_freq global.avg_length doc_count boost
    (compute_idf reader_info.doc_freq doc_count) reader_info.max_score_factor
    reader_info.block_max).with_field_lengths
    (some (ScoredSegments.field_lengths (scored segments) field))
  obtain ⟨havg, hzero⟩ := global_avg hstats
  obtain ⟨info, hinfo, hfactor, hblocks⟩ := info_eq hfield hlist
  rcases ScoredSegments.term_info_cases hreader with
    ⟨hunset, hnone⟩ | ⟨global', hglobal, hguard, hterm, hblock⟩
  · exact Bounded.of_unset rfl rfl havg hunset hnone posting
  obtain rfl := Option.some.inj (hstats.symm.trans hglobal)
  -- below the factor of any postings that have this one
  have hbelow : ∀ postings, posting ∈ postings →
      scorer.component posting.doc_id.toNat posting.frequency.toNat ≤
        max_factor (from_buffered s.buffered_docs) field
          ((from_buffered s.buffered_docs).avg_length 𝕜 field) postings := by
    intro postings hpostings
    refine component_le_factor rfl rfl (fun factor => le_max_factor hpostings) ?_
    refine ratio_le scorer havg (fun stats hrecorded => ?_) ?_
    · rw [← s.field_stats_eq] at hrecorded
      exact ⟨hguard _ hs' info stats hinfo hrecorded, hzero s hs stats hrecorded⟩
    · have hlength := field_lengths_eq field h hs hlive
      rw [scorer.field_len_of_lengths rfl, hlength, Option.map_map]
      rfl
  have hmem_infos : info ∈ ScoredSegments.infos (scored segments) field term :=
    List.mem_filterMap.2 ⟨_, hs', hinfo⟩
  have hterm_bound : scorer.component posting.doc_id.toNat posting.frequency.toNat ≤
      scorer.max_score_factor := by
    refine (hbelow _ hmem).trans ?_
    rw [← hfactor]
    exact hterm info hmem_infos
  refine ⟨?_, fun hne => ?_⟩
  · split
    · exact hterm_bound
    · exact component_le_ceiling rfl rfl havg _ _
  · -- the blocks are those of the only segment with the term
    obtain ⟨chunk, hchunk, hfind⟩ := find_block (from_buffered s.buffered_docs) field
      ((from_buffered s.buffered_docs).avg_length 𝕜 field) (s.ascending _ _ hlist) hmem
    have hblock_eq : scorer.block_max = reader_info.block_max := rfl
    refine ⟨block_bound (from_buffered s.buffered_docs) field
      ((from_buffered s.buffered_docs).avg_length 𝕜 field) chunk, ?_, hbelow chunk hchunk⟩
    grind

/-! ## A field with a colon -/

section Colon

/-- The lengths of a document with "x" and one with "y y y". -/
def colon_docs (field : String) : List (UInt64 × FieldLengths) :=
  [(1, [⟨field, 1⟩].toAList), (2, [⟨field, 3⟩].toAList)]

/-- Their postings. -/
def colon_index (field : String) : TermPostingIndex :=
  (TermPostingIndex.new.add_document 1 [(SegmentReader.term_key field "x", 1, some [0])]).add_document
    2 [(SegmentReader.term_key field "y", 3, some [0, 1, 2])]

theorem lookup_single (field other : String) (len : UInt32) :
    ([⟨field, len⟩].toAList : FieldLengths).lookup other =
      if field = other then some len else none := by
  rw [AList.lookup_to_alist]
  grind

theorem recorded_colon (field other : String) (d : UInt64) :
    recorded (colon_docs field) other d =
      if field = other then (if d = 2 then some 3 else if d = 1 then some 1 else none) else none := by
  have hsplit : colon_docs field = ([] ++ [(1, [⟨field, 1⟩].toAList)]) ++ [(2, [⟨field, 3⟩].toAList)] :=
    rfl
  rw [hsplit, recorded_concat, recorded_concat, lookup_single, lookup_single]
  by_cases h : field = other
  · rw [if_pos h, if_pos h, if_pos h]
    by_cases h2 : d = 2
    · grind
    · rw [if_neg (Ne.symm h2), if_neg h2]
      by_cases h1 : d = 1
      · grind
      · rw [if_neg (Ne.symm h1), if_neg h1]
        rfl
  · rw [if_neg h, if_neg h, if_neg h]
    split
    · split
      · rfl
      · rfl
    · split
      · rfl
      · rfl

theorem recorded_lengths_colon (field : String) : recorded_lengths (colon_docs field) field = [1, 3] := by
  have hdocs : documents (colon_docs field) = [1, 2] := by
    show (([1, 2] : List UInt64).insertionSort (· ≤ ·)).dedup = [1, 2]
    decide
  rw [recorded_lengths, hdocs]
  simp only [List.filterMap_cons, recorded_colon, if_true]
  rfl

theorem colon_recordable {field : String} (h : field.toByteArray.data.toList.length < 2 ^ 62) :
    Recordable (colon_docs field) where
  few := by
    have hle := (List.dedup_sublist (((colon_docs field).map Prod.fst).insertionSort (· ≤ ·))).length_le
    exact Nat.lt_of_le_of_lt hle (by show 2 < 2 ^ 32; omega)
  names doc hdoc name hname := by
    have hlookup : ∀ len : UInt32, name ∈ ([⟨field, len⟩].toAList : FieldLengths) → field = name := by
      intro len hmem
      rw [← AList.lookup_isSome, lookup_single] at hmem
      grind
    have hname' : field = name := by
      rcases List.mem_cons.1 hdoc with rfl | hdoc
      · exact hlookup 1 hname
      grind
    rw [← hname']
    omega
  fields := by
    show 2 < 2 ^ 63
    omega

theorem length_term_key (field term : String) :
    (SegmentReader.term_key field term).toByteArray.data.toList.length =
      field.toByteArray.data.toList.length + 1 + term.toByteArray.data.toList.length := by
  have hcolon : ":".utf8ByteSize = 1 := rfl
  rw [SegmentReader.term_key, String.toByteArray_append, String.toByteArray_append]
  simp only [ByteArray.data_append, Array.toList_append, List.length_append, Array.length_toList,
    ByteArray.size_data, String.size_toByteArray, hcolon]

theorem term_key_ne (field : String) :
    SegmentReader.term_key field "y" ≠ SegmentReader.term_key field "x" := by
  intro heq
  grind [toList_term_key, List.append_cancel_left_eq]

theorem terms_colon (field : String) : (colon_index field).terms =
    [(SegmentReader.term_key field "y",
        ⟨SegmentReader.term_key field "y", [Posting.with_positions 2 [0, 1, 2]], 3, 1⟩),
      (SegmentReader.term_key field "x",
        ⟨SegmentReader.term_key field "x", [Posting.with_positions 1 [0]], 1, 1⟩)] := by
  have hone : (TermPostingIndex.new.add_document 1
      [(SegmentReader.term_key field "x", 1, some [0])]).terms =
      [(SegmentReader.term_key field "x",
        ⟨SegmentReader.term_key field "x", [Posting.with_positions 1 [0]], 1, 1⟩)] := rfl
  have hnone : (TermPostingIndex.new.add_document 1
      [(SegmentReader.term_key field "x", 1, some [0])]).get_posting_list
        (SegmentReader.term_key field "y") = none := by
    rw [TermPostingIndex.get_posting_list, hone, List.lookup_cons, beq_false_of_ne (term_key_ne field)]
    rfl
  rw [colon_index, TermPostingIndex.add_document]
  dsimp only [List.foldl_cons, List.foldl_nil]
  rw [TermPostingIndex.add_posting, hnone]
  dsimp only
  rw [hone]
  rfl

theorem lone_kept {key : String} (h : key.toByteArray.data.toList.length < 2 ^ 64) {d : UInt64}
    (hd : d.toNat < 2 ^ 32) {positions : List UInt32} {total_frequency : UInt64}
    (hpositions : positions.length < 2 ^ 32)
    (htotal : total_frequency.toNat = positions.length) :
    PostingList.Kept ⟨key, [Posting.with_positions d positions], total_frequency, 1⟩ := by
  have hfrequency : (Posting.with_positions d positions).frequency.toNat = positions.length :=
    UInt32.toNat_ofNat_of_lt' hpositions
  refine ⟨List.pairwise_singleton _ _, ?_, ?_, h, rfl, ?_⟩
  · intro p hp
    rw [List.mem_singleton.1 hp]
    exact hd
  · intro p hp
    rw [List.mem_singleton.1 hp]
    intro ps hps
    cases hps
    exact hfrequency
  · show total_frequency.toNat = (Posting.with_positions d positions).frequency.toNat + 0
    rw [hfrequency, htotal, Nat.add_zero]

theorem colon_kept {field : String} (h : field.toByteArray.data.toList.length < 2 ^ 62) :
    (colon_index field).Kept := by
  have hx : (SegmentReader.term_key field "x").toByteArray.data.toList.length < 2 ^ 64 := by
    have hone : "x".toByteArray.data.toList.length = 1 := rfl
    rw [length_term_key]
    omega
  have hy : (SegmentReader.term_key field "y").toByteArray.data.toList.length < 2 ^ 64 := by
    have hone : "y".toByteArray.data.toList.length = 1 := rfl
    rw [length_term_key]
    omega
  intro entry hentry
  grind [terms_colon, lone_kept]

omit [IsStrictOrderedRing 𝕜] in
theorem exists_colon (hP : packer.Lawful) (crc32 : Bytes → UInt32)
    (h : field.toByteArray.data.toList.length < 2 ^ 62) :
    ∃ s : FlushedSegment 𝕜 packer crc32, s.buffered_docs = colon_docs field ∧
      s.inverted_index = colon_index field ∧ s.deleted_docs = none := by
  obtain ⟨dictionary, w, hw⟩ := @write_terms_ok 𝕜 _ _ packer (colon_index field) hP (colon_kept h)
    (from_buffered (colon_docs field)) (((colon_index field).terms.map Prod.fst).mergeSort
      fun a b => decide (a ≤ b)) ∅ StructWriter.new StructWriter.ready_new
  obtain ⟨file, r, hfile, hload, -⟩ := load_file_eq (writable (colon_recordable h)) crc32
  -- a list of the index is one of its two
  have hlists : ∀ key posting_list,
      (colon_index field).get_posting_list key = some posting_list →
      posting_list.postings = [Posting.with_positions 2 [0, 1, 2]] ∨
        posting_list.postings = [Posting.with_positions 1 [0]] := by
    intro key posting_list hlist
    obtain ⟨before, after, hterms, -⟩ := List.lookup_eq_some_iff.1 hlist
    have hmem : (key, posting_list) ∈ (colon_index field).terms := by grind
    rw [terms_colon] at hmem
    grind
  refine ⟨{
    min_doc_id := 1
    max_doc_id := 2
    dictionary
    norms := (from_buffered (colon_docs field)).loaded
    deleted_docs := none
    buffered_docs := colon_docs field
    inverted_index := colon_index field
    recordable := colon_recordable h
    ascending := ?_
    held := ?_
    covered := ?_
    dictionary_written := ⟨w, hw⟩
    norms_loaded := ⟨file, r, hfile, hload⟩ }, rfl, rfl, rfl⟩
  · intro key posting_list hlist
    rcases hlists key posting_list hlist with heq | heq
    · rw [heq]
      exact List.pairwise_singleton _ _
    · rw [heq]
      exact List.pairwise_singleton _ _
  · intro key posting_list hlist posting hposting
    rcases hlists key posting_list hlist with heq | heq
    · rw [heq] at hposting
      rw [List.mem_singleton.1 hposting]
      exact List.mem_cons_of_mem _ List.mem_cons_self
    · rw [heq] at hposting
      rw [List.mem_singleton.1 hposting]
      exact List.mem_cons_self
  · intro doc hdoc
    rcases List.mem_cons.1 hdoc with rfl | hdoc
    · simp
    grind

omit [LinearOrder 𝕜] [IsStrictOrderedRing 𝕜] in
theorem field_stats_one {s : ScoredSegment 𝕜} {stats : NormStats 𝕜} [CharZero 𝕜]
    (h : s.field_stats field = some stats) (hcount : 0 < stats.doc_count) :
    ∃ global, ScoredSegments.field_stats [s] field = some global ∧
      global.avg_length = stats.avg_length := by
  have hof : ScoredSegments.stats_of [s] field = [stats] := List.filterMap_cons_some h
  obtain ⟨hfound, -, -⟩ :=
    ScoredSegments.foldl_add_stats [s] field (⟨0, 0, 2 ^ 64 - 1, 0, false⟩ : StatsSum 𝕜)
  have hsome : (ScoredSegments.field_stats [s] field).isSome := by
    rw [ScoredSegments.field_stats, hfound, hof]
    rfl
  obtain ⟨global, hglobal⟩ := Option.isSome_iff_exists.1 hsome
  obtain ⟨-, havg⟩ := ScoredSegments.field_stats_avg hglobal (by grind)
  refine ⟨global, hglobal, ?_⟩
  rw [havg, hof]
  simp only [List.map_cons, List.map_nil, List.sum_cons, List.sum_nil, add_zero]
  exact mul_div_cancel_right₀ _ (Nat.cast_ne_zero.2 hcount.ne')

omit [IsStrictOrderedRing 𝕜] in
theorem term_info_one {s : ScoredSegment 𝕜} {stats : NormStats 𝕜} {info : TermInfo 𝕜} [CharZero 𝕜]
    (hinfo : s.term_info field term = some info) (h : s.field_stats field = some stats)
    (hcount : 0 < stats.doc_count) (hfactor : 0 ≤ info.max_score_factor) :
    ∃ reader_info, ScoredSegments.term_info [s] field term = some reader_info ∧
      reader_info.max_score_factor = info.max_score_factor := by
  obtain ⟨global, hglobal, havg⟩ := field_stats_one h hcount
  have hsum : [s].foldl (ScoredSegments.add_term_info field term) ScoredSegments.TermSum.start =
      ScoredSegments.add_term_info field term ScoredSegments.TermSum.start s := rfl
  rw [ScoredSegments.term_info, hsum, ScoredSegments.add_term_info, hinfo, h, hglobal]
  refine ⟨_, rfl, ?_⟩
  show (if global.avg_length ≤ stats.avg_length then
    (max 0 info.max_score_factor, ([] ++ info.block_max : List (BlockMax 𝕜))) else (0, [])).1 = _
  grind

theorem list_colon (field : String) :
    (colon_index field).get_posting_list (SegmentReader.term_key field "x") =
      some ⟨SegmentReader.term_key field "x", [Posting.with_positions 1 [0]], 1, 1⟩ := by
  rw [TermPostingIndex.get_posting_list, terms_colon, List.lookup_cons,
    beq_false_of_ne (Ne.symm (term_key_ne field))]
  dsimp only
  rw [List.lookup_cons_self]

/-- **The bound of "x" is that of another field**, in which no document has a
length. -/
theorem info_colon (hcolon : ':' ∈ field.toList) (hdocs : s.buffered_docs = colon_docs field)
    (hindex : s.inverted_index = colon_index field) :
    ∃ info, s.term_info field "x" = some info ∧ info.max_score_factor = 1 := by
  obtain ⟨field_name, rest, hsplit, hne⟩ := split_once_of_mem hcolon "x"
  obtain ⟨info, hinfo, hlisted⟩ := (s.dictionary_spec _).2 _ (hindex ▸ list_colon field)
  refine ⟨info, hinfo, ?_⟩
  have hnil : recorded_lengths (colon_docs field) field_name = [] := by
    rw [recorded_lengths, List.filterMap_eq_nil_iff]
    intro d _
    rw [recorded_colon, if_neg (Ne.symm hne)]
    rfl
  have havg : (from_buffered s.buffered_docs).avg_length 𝕜 field_name = 0 := by
    rw [hdocs, avg_length_eq, recorded_stats, if_pos hnil]
    rfl
  have hfrequency : (Posting.with_positions 1 [0]).frequency.toNat = 1 := rfl
  have hbounds := hlisted.bounds
  rw [term_bounds, hsplit] at hbounds
  rw [Prod.mk.injEq] at hbounds
  rw [hbounds.1, havg, compute_term_max_score_factor, max_factor, List.map_cons, List.map_nil,
    posting_factor_eq (by rw [hfrequency]; exact one_ne_zero), hfrequency, len_ratio,
    if_neg (lt_irrefl _), K1, B, List.foldl_cons, List.foldl_nil, raise]
  norm_num

/-- **What "x" scores is above its bound**: its document is shorter than the
average. -/
theorem scorer_colon (hcolon : ':' ∈ field.toList) (hdocs : s.buffered_docs = colon_docs field)
    (hindex : s.inverted_index = colon_index field) (hdeleted : s.deleted_docs = none)
    (doc_count : ℕ) (boost : 𝕜) (compute_idf : ℕ → ℕ → 𝕜) :
    let scorer := ScoredSegments.scorer (scored [s]) field "x" doc_count boost compute_idf
    scorer.max_score_factor = 1 ∧ scorer.component 1 1 = 44 / 35 := by
  obtain ⟨info, hinfo, hfactor⟩ := info_colon hcolon hdocs hindex
  have hstats : s.field_stats field = some ⟨2, 4 / 2, 1, 3⟩ := by
    rw [s.field_stats_eq, hdocs, recorded_stats, recorded_lengths_colon,
      if_neg (List.cons_ne_nil _ _)]
    norm_num [List.min?, List.max?]
  obtain ⟨global, hglobal, havg⟩ := field_stats_one hstats Nat.zero_lt_two
  obtain ⟨reader_info, hreader, hmax⟩ := term_info_one hinfo hstats Nat.zero_lt_two
    (by rw [hfactor]; exact zero_le_one)
  have hlive : (1 : UInt64) ∈ s.live := by
    rw [mem_live, hdocs, ScoredSegment.is_deleted, hdeleted]
    exact ⟨List.mem_cons_self, rfl⟩
  have hlength := field_lengths_eq field (List.pairwise_singleton _ s)
    List.mem_cons_self hlive
  rw [hdocs, recorded_colon, if_pos rfl] at hlength
  have hone : scored [s] = [s.toScoredSegment] := rfl
  rw [hone]
  dsimp only
  rw [ScoredSegments.scorer_eq hreader hglobal]
  set scorer := (BM25Scorer.with_block_max reader_info.doc_freq global.avg_length doc_count boost
    (compute_idf reader_info.doc_freq doc_count) reader_info.max_score_factor
    reader_info.block_max).with_field_lengths
    (some (ScoredSegments.field_lengths [s.toScoredSegment] field))
  refine ⟨hmax.trans hfactor, ?_⟩
  have hscored : scorer.avg_field_length = 2 := by
    show global.avg_length = 2
    rw [havg]
    norm_num
  have hlen : scorer.field_len 1 none = 1 := by
    have hget : ScoredSegments.field_lengths [s.toScoredSegment] field 1 = some 1 :=
      hlength.trans (by decide +kernel)
    rw [scorer.field_len_of_lengths rfl, hget]
    exact Nat.cast_one
  have hk1 : scorer.k1 = 6 / 5 := rfl
  have hb : scorer.b = 3 / 4 := rfl
  rw [BM25Scorer.component, BM25Scorer.tf, BM25Scorer.norm_factor, hlen, hscored, hk1, hb]
  norm_num

omit [IsStrictOrderedRing 𝕜] in
theorem live_colon (hindex : s.inverted_index = colon_index field)
    (hdeleted : s.deleted_docs = none) :
    LivePosting [s] field "x" (Posting.with_positions 1 [0]) := by
  refine ⟨s, List.mem_cons_self, _, hindex ▸ list_colon field, List.mem_cons_self, ?_⟩
  rw [ScoredSegment.is_deleted, hdeleted]
  rfl

theorem not_bounded_colon (hcolon : ':' ∈ field.toList)
    (hdocs : s.buffered_docs = colon_docs field) (hindex : s.inverted_index = colon_index field)
    (hdeleted : s.deleted_docs = none) (doc_count : ℕ) (boost : 𝕜) (compute_idf : ℕ → ℕ → 𝕜) :
    ¬ Bounded (ScoredSegments.scorer (scored [s]) field "x" doc_count boost compute_idf)
      (Posting.with_positions 1 [0]) := by
  intro h
  obtain ⟨hfactor, hcomponent⟩ :=
    scorer_colon hcolon hdocs hindex hdeleted doc_count boost compute_idf
  have hle := h.term_bound
  have hdoc : (Posting.with_positions 1 [0]).doc_id.toNat = 1 := rfl
  have hfrequency : (Posting.with_positions 1 [0]).frequency.toNat = 1 := rfl
  grind

end Colon

/-! ## The scorer -/

omit [IsStrictOrderedRing 𝕜] in
theorem blocks_spec (hfield : ':' ∉ field.toList) {info : TermInfo 𝕜}
    (h : s.term_info field term = some info) :
    (info.block_max.Pairwise fun block block' => block.last_doc_id < block'.last_doc_id) ∧
      ∀ block ∈ info.block_max, 0 ≤ block.max_factor := by
  rcases hlist : s.inverted_index.get_posting_list (SegmentReader.term_key field term) with
    _ | posting_list
  · rw [ScoredSegment.term_info, (s.dictionary_spec _).1 hlist] at h
    cases h
  · obtain ⟨info', hinfo', -, hblocks⟩ := info_eq hfield hlist
    obtain rfl := Option.some.inj (h.symm.trans hinfo')
    rw [hblocks]
    refine ⟨blocks_ascending (s.ascending _ _ hlist), fun block hblock => ?_⟩
    obtain ⟨chunk, -, rfl⟩ := List.mem_map.1 hblock
    exact max_factor_nonneg _ _ _ _

/-- **A scorer of the reader is sound** for the live documents of its term, so
that all its bounds on scores hold (`BM25Scorer.Sound`). -/
theorem scorer_sound (hfield : ':' ∉ field.toList) (h : Apart live segments) {doc_count : ℕ}
    {boost : 𝕜} (hboost : 0 ≤ boost) {compute_idf : ℕ → ℕ → 𝕜}
    (hidf : ∀ doc_freq total_docs, 0 ≤ compute_idf doc_freq total_docs) {D : Finset ℕ}
    {term_freqs : ℕ → ℕ} (hD : ∀ d ∈ D, ∃ posting, LivePosting segments field term posting ∧
      posting.doc_id.toNat = d ∧ posting.frequency.toNat = term_freqs d) :
    (ScoredSegments.scorer (scored segments) field term doc_count boost compute_idf).Sound D
      term_freqs := by
  set scorer := ScoredSegments.scorer (scored segments) field term doc_count boost compute_idf
    with hscorer
  have hbounded : ∀ d ∈ D, ∃ posting, Bounded scorer posting ∧ posting.doc_id.toNat = d ∧
      posting.frequency.toNat = term_freqs d := by
    grind [bounded]
  have hterm : 0 < scorer.max_score_factor → scorer.default_params = true →
      ∀ d ∈ D, scorer.component d (term_freqs d) ≤ scorer.max_score_factor := by
    intro hpos _ d hd
    obtain ⟨posting, hbound, rfl, hfrequency⟩ := hbounded d hd
    have hle := hbound.term_bound
    rwa [if_pos hpos, hfrequency] at hle
  have hblock : scorer.block_max ≠ [] → scorer.default_params = true → ∀ d ∈ D, ∃ block,
      scorer.block_max.find? (fun b => d ≤ b.last_doc_id) = some block ∧
        scorer.component d (term_freqs d) ≤ block.max_factor := by
    intro hne _ d hd
    obtain ⟨posting, hbound, rfl, hfrequency⟩ := hbounded d hd
    rw [← hfrequency]
    exact hbound.block_bound hne
  have hB : (0 : 𝕜) ≤ B ∧ (B : 𝕜) ≤ 1 := by
    rw [B]
    exact ⟨by norm_num, by norm_num⟩
  have hK1 : (0 : 𝕜) ≤ K1 := by rw [K1]; norm_num
  rcases hstats : ScoredSegments.field_stats (scored segments) field with _ | global
  · rw [ScoredSegments.scorer_of_none (Or.inr hstats)] at hscorer
    rw [hscorer] at hterm hblock ⊢
    exact ⟨hboost, hidf 0 0, hK1, hB.1, hB.2, le_rfl, List.Pairwise.nil,
      fun _ hmem => absurd hmem List.not_mem_nil, hterm, hblock⟩
  rcases hreader : ScoredSegments.term_info (scored segments) field term with _ | reader_info
  · rw [ScoredSegments.scorer_of_none (Or.inl hreader)] at hscorer
    rw [hscorer] at hterm hblock ⊢
    exact ⟨hboost, hidf 0 0, hK1, hB.1, hB.2, le_rfl, List.Pairwise.nil,
      fun _ hmem => absurd hmem List.not_mem_nil, hterm, hblock⟩
  have hblocks : (reader_info.block_max.Pairwise fun block block' =>
      block.last_doc_id < block'.last_doc_id) ∧
      ∀ block ∈ reader_info.block_max, 0 ≤ block.max_factor := by
    rcases ScoredSegments.term_info_cases hreader with
      ⟨-, hnone⟩ | ⟨-, -, -, -, hnone | ⟨i, hone, heq⟩⟩
    · grind
    · grind
    · have hi : i ∈ ScoredSegments.infos (scored segments) field term := by grind
      obtain ⟨_, hmem, hinfo⟩ := List.mem_filterMap.1 hi
      obtain ⟨s, -, rfl⟩ := List.mem_map.1 hmem
      rw [heq]
      exact blocks_spec hfield hinfo
  rw [ScoredSegments.scorer_eq hreader hstats] at hscorer
  rw [hscorer] at hterm hblock ⊢
  exact ⟨hboost, hidf _ _, hK1, hB.1, hB.2, (global_avg hstats).1, hblocks.1, hblocks.2, hterm,
    hblock⟩

end FlushedSegment

open FlushedSegment in
/-- **The bounds of a term are those of its own field** exactly where the
field has no colon in its name: then, for any segments with any averages of
which none holds a document that is live in another, the factor of the term
and those of its blocks are above the component of every live posting, at the
average that the query scores with. -/
theorem term_bounds_sound (𝕜 : Type) [Field 𝕜] [LinearOrder 𝕜] [IsStrictOrderedRing 𝕜]
    {packer : BitPacker} (hP : packer.Lawful) (crc32 : Bytes → UInt32) {field : String}
    (hfield : field.toByteArray.data.toList.length < 2 ^ 62) :
    (∀ (segments : List (FlushedSegment 𝕜 packer crc32)) (term : String) (posting : Posting)
      (doc_count : ℕ) (boost : 𝕜) (compute_idf : ℕ → ℕ → 𝕜), Apart live segments →
        LivePosting segments field term posting →
        Bounded (ScoredSegments.scorer (scored segments) field term doc_count boost compute_idf)
          posting) ↔
      ':' ∉ field.toList := by
  constructor
  · intro hall hcolon
    obtain ⟨s, hdocs, hindex, hdeleted⟩ := @exists_colon 𝕜 _ _ packer field hP crc32 hfield
    exact not_bounded_colon hcolon hdocs hindex hdeleted 2 1 (fun _ _ => 1)
      (hall [s] "x" _ 2 1 (fun _ _ => 1) (List.pairwise_singleton _ s)
        (live_colon hindex hdeleted))
  · intro hcolon segments term posting doc_count boost compute_idf h hposting
    exact bounded hcolon h hposting doc_count boost compute_idf

open FlushedSegment in
/-- In the field "body" the bound holds of the two documents. -/
theorem term_bounds_sound_body : ∃ s : FlushedSegment ℚ BitPacker.plain Crc32.checksum,
    s.buffered_docs = colon_docs "body" ∧ s.inverted_index = colon_index "body" ∧
      Bounded (ScoredSegments.scorer (scored [s]) "body" "x" 2 1 fun _ _ => 1)
        (Posting.with_positions 1 [0]) := by
  obtain ⟨s, hdocs, hindex, hdeleted⟩ := @exists_colon ℚ _ _ BitPacker.plain "body"
    BitPacker.plain_lawful Crc32.checksum (by decide)
  exact ⟨s, hdocs, hindex, (term_bounds_sound ℚ BitPacker.plain_lawful Crc32.checksum
    (by decide)).2 (by decide) [s] "x" _ 2 1 (fun _ _ => 1) (List.pairwise_singleton _ s)
    (live_colon hindex hdeleted)⟩

open FlushedSegment in
/-- In the field "a:b" it does not: the bound of "x" is 1, and its component
44/35. -/
theorem term_bounds_sound_counterexample :
    ∃ s : FlushedSegment ℚ BitPacker.plain Crc32.checksum,
      s.buffered_docs = colon_docs "a:b" ∧ s.inverted_index = colon_index "a:b" ∧
        LivePosting [s] "a:b" "x" (Posting.with_positions 1 [0]) ∧
        (ScoredSegments.scorer (scored [s]) "a:b" "x" 2 1 fun _ _ => 1).max_score_factor = 1 ∧
        (ScoredSegments.scorer (scored [s]) "a:b" "x" 2 1 fun _ _ => 1).component 1 1 = 44 / 35 ∧
        ¬ Bounded (ScoredSegments.scorer (scored [s]) "a:b" "x" 2 1 fun _ _ => 1)
          (Posting.with_positions 1 [0]) := by
  obtain ⟨s, hdocs, hindex, hdeleted⟩ := @exists_colon ℚ _ _ BitPacker.plain "a:b"
    BitPacker.plain_lawful Crc32.checksum (by decide)
  obtain ⟨hfactor, hcomponent⟩ := scorer_colon (by decide) hdocs hindex hdeleted 2 1 fun _ _ => 1
  exact ⟨s, hdocs, hindex, live_colon hindex hdeleted, hfactor, hcomponent,
    not_bounded_colon (by decide) hdocs hindex hdeleted 2 1 _⟩

end Laurus
