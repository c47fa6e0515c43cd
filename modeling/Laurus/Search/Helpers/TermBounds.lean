import Laurus.Lexical.Norms
import Laurus.Posting.Helpers.Index
import Laurus.Posting.Packer
import Laurus.Search.Helpers.Scorer
import Laurus.Search.Model.TermBounds
import Mathlib.Algebra.BigOperators.Ring.Finset
import Mathlib.Data.List.TakeWhile

/-!
# The bounds of a term, part by part

The field that a key is split into, the factor of a posting over the ratio of
its length, the maximum over some postings, what a flush puts into its
dictionary, and what the reader's two loops add up.
-/

namespace Laurus

/-! ## Keys -/

section Keys

variable {field term : String}

theorem toList_term_key (field term : String) :
    (SegmentReader.term_key field term).toList = field.toList ++ ':' :: term.toList := by
  rw [SegmentReader.term_key, String.toList_append, String.toList_append, List.append_assoc]
  rfl

/-- **A name without a colon is split off its key.** -/
theorem split_once_term_key (h : ':' ∉ field.toList) (term : String) :
    split_once (SegmentReader.term_key field term) ':' = some (field, term) := by
  have hall : ∀ c ∈ field.toList, (c != ':') = true := by grind
  rw [split_once, toList_term_key, List.dropWhile_append_of_pos hall,
    List.takeWhile_append_of_pos hall, List.dropWhile_cons_of_neg (by simp),
    List.takeWhile_cons_of_neg (by simp)]
  simp

theorem split_once_of_mem (h : ':' ∈ field.toList) (term : String) :
    ∃ field_name rest, split_once (SegmentReader.term_key field term) ':' = some (field_name, rest) ∧
      field_name ≠ field := by
  have hsplit := field.toList.takeWhile_append_dropWhile (p := fun c => c != ':')
  have hdrop : field.toList.dropWhile (fun c => c != ':') ≠ [] := by
    grind [List.mem_takeWhile_imp]
  obtain ⟨c, rest, hrest⟩ := List.exists_cons_of_ne_nil hdrop
  rw [split_once, toList_term_key, List.dropWhile_append, List.takeWhile_append]
  have hlen : (field.toList.takeWhile fun c => c != ':').length ≠ field.toList.length := by grind
  rw [hrest, if_neg (by simp), if_neg hlen]
  refine ⟨_, _, rfl, fun heq => hlen ?_⟩
  have hchars := congrArg String.toList heq
  rw [String.toList_ofList] at hchars
  exact congrArg List.length hchars

end Keys

/-! ## The norms of a flush -/

namespace NormsBuilder

variable {docs : List (UInt64 × FieldLengths)} {field : String}

theorem decoded_length_eq (docs : List (UInt64 × FieldLengths)) (field : String) (d : UInt64) :
    (from_buffered docs).decoded_length d field = (recorded docs field d).map round_down := by
  rw [← look_from_buffered, look, decoded_length]
  rcases (from_buffered docs).fields.lookup field with _ | lengths
  · rfl
  · show (lengths.lookup d).bind _ = (lengths.lookup d).map _
    rcases lengths.lookup d with _ | len
    · rfl
    · rfl

theorem lookup_eq_none (h : recorded_lengths docs field = []) :
    (from_buffered docs).fields.lookup field = none := by
  rcases hlookup : (from_buffered docs).fields.lookup field with _ | lengths
  · rfl
  · exact absurd h (recorded_lengths_ne_nil hlookup)

/-- **The average of a flush is that of the statistics.** -/
theorem avg_length_eq (𝕜 : Type) [Field 𝕜] (docs : List (UInt64 × FieldLengths)) (field : String) :
    (from_buffered docs).avg_length 𝕜 field =
      ((recorded_stats 𝕜 docs field).map NormStats.avg_length).getD 0 := by
  rw [avg_length, recorded_stats]
  rcases hlookup : (from_buffered docs).fields.lookup field with _ | lengths
  · have hnil : recorded_lengths docs field = [] := by
      grind [recorded_lengths, List.filterMap_eq_nil_iff, recorded_of_none]
    rw [if_pos hnil]
    rfl
  · have hnodup : (from_buffered docs).doc_ids.Nodup :=
      (pairwise_doc_ids docs).imp UInt64.ne_of_lt
    have hperm := found_perm hnodup (lengths_held hlookup)
    rw [found_eq hlookup] at hperm
    have hne := recorded_lengths_ne_nil hlookup
    have hkeys : lengths.keys.length = (recorded_lengths docs field).length := by
      rw [hperm.length_eq, AList.keys, List.keys, List.length_map, List.length_map]
    have hkept : lengths.keys.isEmpty = false := by grind
    rw [if_neg hne]
    dsimp only [Option.map_some, Option.getD_some]
    have hsum : ((recorded_lengths docs field).sum : 𝕜) =
        (lengths.entries.map fun entry => (entry.2.toNat : 𝕜)).sum := by
      rw [hperm.sum_eq, Nat.cast_list_sum, List.map_map]
      rfl
    rw [exact_avg_length, hkept, hsum, hkeys]
    rfl

end NormsBuilder

/-! ## The factors -/

namespace InvertedIndexWriter

variable {𝕜 : Type} [LinearOrder 𝕜]

section Raise

variable {factors : List (Option 𝕜)} {factor : 𝕜}

theorem le_raise (acc : 𝕜) (factor : Option 𝕜) : acc ≤ raise acc factor := by
  rcases factor with _ | factor
  · exact le_rfl
  · rw [raise]
    grind

theorem le_raise_some (acc factor : 𝕜) : factor ≤ raise acc (some factor) := by
  rw [raise]
  grind

theorem le_foldl_raise (factors : List (Option 𝕜)) : ∀ acc, acc ≤ factors.foldl raise acc := by
  induction factors with
  | nil => exact fun acc => le_rfl
  | cons factor factors ih => exact fun acc => (le_raise acc factor).trans (ih _)

/-- **The loop ends at an upper bound of the factors.** -/
theorem le_foldl_raise_of_mem (h : some factor ∈ factors) :
    ∀ acc, factor ≤ factors.foldl raise acc := by
  induction factors with
  | nil => exact absurd h List.not_mem_nil
  | cons first factors ih =>
      grind [le_raise_some, le_foldl_raise]

end Raise

variable [Field 𝕜] {norms : NormsBuilder} {field_name : String} {avg_field_length : 𝕜} {posting : Posting}
  {postings : List Posting}

theorem max_factor_nonneg (norms : NormsBuilder) (field_name : String) (avg_field_length : 𝕜)
    (postings : List Posting) : 0 ≤ max_factor norms field_name avg_field_length postings :=
  le_foldl_raise _ _

theorem le_max_factor (h : posting ∈ postings) {factor : 𝕜}
    (hfactor : posting_factor norms field_name avg_field_length posting = some factor) :
    factor ≤ max_factor norms field_name avg_field_length postings := by
  refine le_foldl_raise_of_mem ?_ 0
  grind

variable [IsStrictOrderedRing 𝕜]

theorem len_ratio_nonneg (len : ℕ) : 0 ≤ len_ratio (len : 𝕜) avg_field_length := by
  rw [len_ratio]
  split
  · rename_i hpos
    exact div_nonneg (Nat.cast_nonneg _) hpos.le
  · exact zero_le_one

theorem norm_pos {ratio : 𝕜} (h : 0 ≤ ratio) : 0 < K1 * (1 - B + B * ratio) := by
  rw [K1, B]
  grind

theorem posting_factor_eq (h : posting.frequency.toNat ≠ 0) :
    posting_factor norms field_name avg_field_length posting =
      some ((posting.frequency.toNat : 𝕜) * (K1 + 1) / ((posting.frequency.toNat : 𝕜) +
        K1 * (1 - B + B * len_ratio
          (((norms.decoded_length posting.doc_id field_name).getD 0).toNat : 𝕜)
          avg_field_length))) := by
  have hpos : (0 : 𝕜) < posting.frequency.toNat := Nat.cast_pos.2 (Nat.pos_of_ne_zero h)
  have hnorm := norm_pos (@len_ratio_nonneg 𝕜 _ _ avg_field_length _
    ((norms.decoded_length posting.doc_id field_name).getD 0).toNat)
  rw [posting_factor]
  grind

/-- **A greater ratio makes a smaller component.** -/
theorem component_le_factor {s : BM25Scorer 𝕜} (hk1 : s.k1 = K1) (hb : s.b = B) {d : ℕ}
    (hfactor : ∀ factor, posting_factor norms field_name avg_field_length posting = some factor →
      factor ≤ max_factor norms field_name avg_field_length postings)
    (hratio : len_ratio (((norms.decoded_length posting.doc_id field_name).getD 0).toNat : 𝕜)
        avg_field_length ≤
      if s.avg_field_length = 0 then 1 else s.field_len d none / s.avg_field_length) :
    s.component d posting.frequency.toNat ≤
      max_factor norms field_name avg_field_length postings := by
  rw [BM25Scorer.component, BM25Scorer.tf]
  by_cases hzero : posting.frequency.toNat = 0
  · rw [hzero, Nat.cast_zero, if_pos rfl]
    exact max_factor_nonneg _ _ _ _
  · refine le_trans ?_ (hfactor _ (posting_factor_eq hzero))
    have hpos : (0 : 𝕜) < posting.frequency.toNat := Nat.cast_pos.2 (Nat.pos_of_ne_zero hzero)
    have hnonneg := @len_ratio_nonneg 𝕜 _ _ avg_field_length _
      ((norms.decoded_length posting.doc_id field_name).getD 0).toNat
    have hnorm : s.norm_factor (s.field_len d none) =
        1 - B + B * if s.avg_field_length = 0 then 1
          else s.field_len d none / s.avg_field_length := by
      grind [BM25Scorer.norm_factor]
    have hk : (0 : 𝕜) < K1 := by rw [K1]; norm_num
    have hbpos : (0 : 𝕜) ≤ B := by rw [B]; norm_num
    rw [if_neg hpos.ne', hnorm, hk1]
    refine div_le_div_of_nonneg_left ?_ (add_pos hpos (norm_pos hnonneg)) ?_
    · exact mul_nonneg hpos.le (by linarith)
    grind [mul_le_mul_of_nonneg_left, add_le_add_right]

/-! ## The dictionary -/

section Written

open Comp

omit [IsStrictOrderedRing 𝕜]

variable {packer : BitPacker} {inverted_index : TermPostingIndex} {key term : String}
  {posting_list : PostingList} {dict dict' : TermInfos 𝕜} {w w' : StructWriter}

/-- What the dictionary has of a list: its counts, and the bounds of its key. -/
structure Listed (norms : NormsBuilder) (key : String) (posting_list : PostingList)
    (info : TermInfo 𝕜) : Prop where
  doc_frequency : info.doc_frequency = posting_list.doc_frequency
  total_frequency : info.total_frequency = posting_list.total_frequency
  bounds : (info.max_score_factor, info.block_max) = term_bounds norms key posting_list

theorem write_term_spec
    (h : write_term packer norms inverted_index term dict w = .ok (dict', w')) :
    (∀ key, key ≠ term ∨ inverted_index.get_posting_list key = none →
      dict'.lookup key = dict.lookup key) ∧
    ∀ posting_list, inverted_index.get_posting_list term = some posting_list →
      ∃ info, dict'.lookup term = some info ∧ Listed norms term posting_list info := by
  rw [write_term] at h
  rcases hlist : inverted_index.get_posting_list term with _ | posting_list
  · rw [hlist] at h
    cases h
    simp
  · rw [hlist] at h
    obtain ⟨start, w₁, -, h⟩ := bind_eq_ok h
    obtain ⟨-, w₂, -, h⟩ := bind_eq_ok h
    cases h
    refine ⟨fun key hkey => AList.lookup_insert_ne ?_, fun list hlist => ?_⟩
    · grind
    · cases hlist
      exact ⟨_, AList.lookup_insert _, ⟨rfl, rfl, rfl⟩⟩

theorem write_terms_spec {terms : List String} : ∀ {dict dict' : TermInfos 𝕜} {w w' : StructWriter},
    write_terms packer norms inverted_index terms dict w = .ok (dict', w') →
    (∀ key, key ∉ terms ∨ inverted_index.get_posting_list key = none →
      dict'.lookup key = dict.lookup key) ∧
    ∀ key ∈ terms, ∀ posting_list, inverted_index.get_posting_list key = some posting_list →
      ∃ info, dict'.lookup key = some info ∧ Listed norms key posting_list info := by
  induction terms with
  | nil =>
      intro dict dict' w w' h
      cases h
      simp
  | cons term terms ih =>
      intro dict dict' w w' h
      obtain ⟨dict₁, w₁, hterm, h⟩ := bind_eq_ok h
      obtain ⟨hothers, hlisted⟩ := write_term_spec hterm
      obtain ⟨hrest, hlater⟩ := ih h
      refine ⟨fun key hkey => ?_, fun key hkey posting_list hlist => ?_⟩
      · grind
      · by_cases hmem : key ∈ terms
        · exact hlater key hmem posting_list hlist
        · -- what is written of the key is not written over
          grind

/-- **The dictionary of a flush** has every list of the index, and no other
key. -/
theorem write_inverted_index_spec
    (h : write_inverted_index packer norms inverted_index w = .ok (dict, w')) :
    (∀ key, inverted_index.get_posting_list key = none → dict.lookup key = none) ∧
    ∀ key posting_list, inverted_index.get_posting_list key = some posting_list →
      ∃ info, dict.lookup key = some info ∧ Listed norms key posting_list info := by
  obtain ⟨hothers, hlisted⟩ := write_terms_spec h
  refine ⟨fun key hnone => (hothers key (Or.inr hnone)).trans (AList.lookup_empty _),
    fun key posting_list hlist => hlisted key ?_ posting_list hlist⟩
  rw [List.mem_mergeSort]
  obtain ⟨before, after, hterms, -⟩ := List.lookup_eq_some_iff.1 hlist
  grind

/-- **A flush does not fail** on lists that an index keeps. -/
theorem write_terms_ok (hP : packer.Lawful) (h : inverted_index.Kept) (norms : NormsBuilder)
    {terms : List String} : ∀ {dict : TermInfos 𝕜} {w : StructWriter}, Output.Ready w →
      ∃ dict' w', write_terms packer norms inverted_index terms dict w = .ok (dict', w') := by
  induction terms with
  | nil => exact fun {dict w} _ => ⟨dict, w, rfl⟩
  | cons term terms ih =>
      intro dict w hw
      have hterm : ∃ dict' w', write_term packer norms inverted_index term dict w =
          .ok (dict', w') ∧ Output.Ready w' := by
        rw [write_term]
        rcases hlist : inverted_index.get_posting_list term with _ | posting_list
        · exact ⟨dict, w, rfl, hw⟩
        · obtain ⟨before, after, hterms, -⟩ := List.lookup_eq_some_iff.1 hlist
          have hmem : (term, posting_list) ∈ inverted_index.terms := by grind
          have hkept := (h _ hmem).2
          obtain ⟨bytes, -, hemits, -⟩ := @PostingList.carries_list packer posting_list hP
            hkept.encodable .V3 none fun _ hmax => by cases hmax
          dsimp only
          rw [bind_apply, get_apply]
          dsimp only
          rw [bind_apply, hemits w hw]
          exact ⟨_, _, rfl, Output.ready_emit hw⟩
      obtain ⟨dict', w', hterm, hw'⟩ := hterm
      obtain ⟨dict'', w'', hterms⟩ := ih hw'
      refine ⟨dict'', w'', ?_⟩
      rw [write_terms, bind_apply, hterm]
      exact hterms

theorem term_bounds_eq {field : String} (h : ':' ∉ field.toList) (norms : NormsBuilder)
    (term : String) (posting_list : PostingList) :
    term_bounds norms (SegmentReader.term_key field term) posting_list =
      (max_factor norms field (norms.avg_length 𝕜 field) posting_list.postings,
        (chunks BLOCK_SIZE posting_list.postings).map
          (block_bound norms field (norms.avg_length 𝕜 field))) := by
  rw [term_bounds, split_once_term_key h]
  rfl

/-- **The first block that does not end before a posting has it.** -/
theorem find_block (norms : NormsBuilder) (field_name : String) (avg_field_length : 𝕜)
    {postings : List Posting} (h : PostingList.Ascending postings) (hmem : posting ∈ postings) :
    ∃ chunk, posting ∈ chunk ∧
      ((chunks BLOCK_SIZE postings).map (block_bound norms field_name avg_field_length)).find?
          (fun block => posting.doc_id.toNat ≤ block.last_doc_id) =
        some (block_bound norms field_name avg_field_length chunk) := by
  have hsorted : postings.Pairwise fun p q => p.doc_id.toNat < q.doc_id.toNat :=
    h.imp fun hlt => UInt64.lt_iff_toNat_lt.1 hlt
  have hends : ∀ piece last, piece.getLast? = some last →
      decide (posting.doc_id.toNat ≤
        (block_bound norms field_name avg_field_length piece).last_doc_id) =
      decide (posting.doc_id.toNat ≤ last.doc_id.toNat) := by
    intro piece last hlast
    rw [block_bound, hlast]
    rfl
  have hsize : 0 < BLOCK_SIZE := by decide
  obtain ⟨chunk, hfind, hchunk⟩ := find_chunks hsize hends hsorted hmem
  refine ⟨chunk, hchunk, ?_⟩
  rw [List.find?_map, ← Option.map_some, ← hfind]
  rfl

theorem blocks_ascending {postings : List Posting} (h : PostingList.Ascending postings) :
    ((chunks BLOCK_SIZE postings).map (block_bound norms field_name avg_field_length)).Pairwise
      fun block block' => block.last_doc_id < block'.last_doc_id := by
  have hsorted : postings.Pairwise fun p q => p.doc_id.toNat < q.doc_id.toNat :=
    h.imp fun hlt => UInt64.lt_iff_toNat_lt.1 hlt
  have hsize : 0 < BLOCK_SIZE := by decide
  rw [List.pairwise_map]
  refine (pairwise_chunks hsize hsorted).imp_of_mem fun {chunk chunk'} hchunk hchunk' hlt => ?_
  grind [mem_chunks, block_bound, List.getLast?_eq_some_getLast, List.getLast_mem]

end Written

end InvertedIndexWriter

/-! ## What the reader adds up -/

namespace ScoredSegments

section Averages

variable {𝕜 : Type} [LinearOrder 𝕜]

theorem min_avg_le_left {m : 𝕜} (stats : Option (NormStats 𝕜)) :
    ∃ m', min_avg (some m) stats = some m' ∧ m' ≤ m := by
  rcases stats with _ | stats
  · exact ⟨m, rfl, le_rfl⟩
  · exact ⟨_, rfl, min_le_left _ _⟩

theorem min_avg_le_right (min_matched_avg : Option 𝕜) (stats : NormStats 𝕜) :
    ∃ m', min_avg min_matched_avg (some stats) = some m' ∧ m' ≤ stats.avg_length := by
  rcases min_matched_avg with _ | m
  · exact ⟨_, rfl, le_rfl⟩
  · exact ⟨_, rfl, min_le_right _ _⟩

end Averages

variable {𝕜 : Type} [Field 𝕜] {segments : List (ScoredSegment 𝕜)} {field term : String}

/-- The infos that the segments have of a term. -/
def infos (segments : List (ScoredSegment 𝕜)) (field term : String) : List (TermInfo 𝕜) :=
  segments.filterMap fun s => s.term_info field term

/-- The statistics that the segments have of a field. -/
def stats_of (segments : List (ScoredSegment 𝕜)) (field : String) : List (NormStats 𝕜) :=
  segments.filterMap fun s => s.field_stats field

theorem foldl_add_stats (segments : List (ScoredSegment 𝕜)) (field : String) : ∀ sum,
    let out := segments.foldl (add_stats field) sum
    out.found = (sum.found || !(stats_of segments field).isEmpty) ∧
      out.total_doc_count =
        sum.total_doc_count + ((stats_of segments field).map NormStats.doc_count).sum ∧
      out.total_length_sum = sum.total_length_sum +
        ((stats_of segments field).map fun stats => stats.avg_length * (stats.doc_count : 𝕜)).sum := by
  induction segments with
  | nil =>
      intro sum
      exact ⟨(Bool.or_false _).symm, rfl, (add_zero _).symm⟩
  | cons first segments ih =>
      intro sum
      dsimp only
      rcases hstats : first.field_stats field with _ | stats
      · grind [add_stats, stats_of]
      grind [stats_of, add_stats]

theorem field_stats_avg {global : NormStats 𝕜} (h : field_stats segments field = some global)
    (hcounts : ∀ stats ∈ stats_of segments field, 0 < stats.doc_count) :
    0 < ((stats_of segments field).map NormStats.doc_count).sum ∧
      global.avg_length =
        ((stats_of segments field).map fun stats => stats.avg_length * (stats.doc_count : 𝕜)).sum /
          (((stats_of segments field).map NormStats.doc_count).sum : 𝕜) := by
  obtain ⟨hfound, hcount, hlength⟩ := foldl_add_stats segments field ⟨0, 0, 2 ^ 64 - 1, 0, false⟩
  rw [field_stats, hfound] at h
  rcases hof : stats_of segments field with _ | ⟨stats, rest⟩
  · rw [hof] at h
    cases h
  grind

variable [LinearOrder 𝕜]

/-- What the loop of `term_info` makes of a sum. -/
structure Added (segments : List (ScoredSegment 𝕜)) (field term : String)
    (sum out : TermSum 𝕜) : Prop where
  matched_count : out.matched_count = sum.matched_count + (infos segments field term).length
  block_max : out.combined_block_max =
    sum.combined_block_max ++ (infos segments field term).flatMap TermInfo.block_max
  factor_le : sum.max_score_factor ≤ out.max_score_factor
  le_factor : ∀ info ∈ infos segments field term, info.max_score_factor ≤ out.max_score_factor
  avg_le : ∀ m, sum.min_matched_avg = some m → ∃ m', out.min_matched_avg = some m' ∧ m' ≤ m
  le_avg : ∀ s ∈ segments, ∀ info stats, s.term_info field term = some info →
    s.field_stats field = some stats → ∃ m, out.min_matched_avg = some m ∧ m ≤ stats.avg_length

theorem foldl_add_term_info (segments : List (ScoredSegment 𝕜)) (field term : String) :
    ∀ sum, Added segments field term sum (segments.foldl (add_term_info field term) sum) := by
  induction segments with
  | nil =>
      intro sum
      exact ⟨rfl, (List.append_nil _).symm, le_rfl, fun _ h => absurd h List.not_mem_nil,
        fun m hm => ⟨m, hm, le_rfl⟩, fun _ h => absurd h List.not_mem_nil⟩
  | cons first segments ih =>
      intro sum
      rw [List.foldl_cons]
      rcases hinfo : first.term_info field term with _ | info
      · have hsame : add_term_info field term sum first = sum := by rw [add_term_info, hinfo]
        have hinfos : infos (first :: segments) field term = infos segments field term :=
          List.filterMap_cons_none hinfo
        obtain ⟨hcount, hblocks, hfactor, hle, havg, hle_avg⟩ := ih sum
        rw [hsame]
        refine ⟨by rw [hinfos]; exact hcount, by rw [hinfos]; exact hblocks, hfactor,
          by rw [hinfos]; exact hle, havg, fun s hs info stats hsome hstats => ?_⟩
        grind
      · have hinfos : infos (first :: segments) field term =
            info :: infos segments field term := List.filterMap_cons_some hinfo
        set sum' := add_term_info field term sum first with hsum'
        rw [add_term_info, hinfo] at hsum'
        have hmax : sum'.max_score_factor = max sum.max_score_factor info.max_score_factor := by
          rw [hsum']
        obtain ⟨hcount, hblocks, hfactor, hle, havg, hle_avg⟩ := ih sum'
        rw [hmax] at hfactor
        refine ⟨?_, ?_, (le_max_left _ _).trans hfactor, ?_, fun m hm => ?_,
          fun s hs info' stats hsome hstats => ?_⟩
        · grind
        · grind
        · grind
        · obtain ⟨m', hm', hle'⟩ := min_avg_le_left (m := m) (first.field_stats field)
          grind
        · rcases List.mem_cons.1 hs with rfl | hs
          · obtain ⟨m', hm', hle'⟩ := min_avg_le_right sum.min_matched_avg stats
            grind
          grind

theorem guard_bounds_cases (min_matched_avg : Option 𝕜) (global_stats : Option (NormStats 𝕜))
    (bounds : 𝕜 × List (BlockMax 𝕜)) :
    guard_bounds min_matched_avg global_stats bounds = (0, []) ∨
    ∃ min_avg stats, min_matched_avg = some min_avg ∧ global_stats = some stats ∧
      stats.avg_length ≤ min_avg ∧ guard_bounds min_matched_avg global_stats bounds = bounds := by
  rcases min_matched_avg with _ | min_avg
  · exact Or.inl rfl
  rcases global_stats with _ | stats
  · exact Or.inl rfl
  rw [guard_bounds]
  grind

/-- **What the reader tells of a term**: bounds that are unset, or those of
the segments, none of whose averages is below the one of a query. -/
theorem term_info_cases {info : ReaderTermInfo 𝕜} (h : term_info segments field term = some info) :
    (info.max_score_factor = 0 ∧ info.block_max = []) ∨
    ∃ global, field_stats segments field = some global ∧
      (∀ s ∈ segments, ∀ i stats, s.term_info field term = some i →
        s.field_stats field = some stats → global.avg_length ≤ stats.avg_length) ∧
      (∀ i ∈ infos segments field term, i.max_score_factor ≤ info.max_score_factor) ∧
      (info.block_max = [] ∨ ∃ i, infos segments field term = [i] ∧ info.block_max = i.block_max) := by
  have hadded := foldl_add_term_info segments field term TermSum.start
  rw [term_info] at h
  set sum := segments.foldl (add_term_info field term) TermSum.start
  by_cases hmatched : 0 < sum.matched_count
  · rw [if_pos hmatched] at h
    cases h
    rcases guard_bounds_cases sum.min_matched_avg (field_stats segments field)
      (sum.max_score_factor, if sum.matched_count = 1 then sum.combined_block_max else [])
      with hunset | ⟨min_avg, global, hmin, hglobal, hle, hset⟩
    · grind
    · right
      refine ⟨global, hglobal, fun s hs i stats hi hstats => ?_, ?_, ?_⟩
      · obtain ⟨m, hm, hm_le⟩ := hadded.le_avg s hs i stats hi hstats
        grind
      · rw [hset]
        exact hadded.le_factor
      · rw [hset]
        by_cases hone : sum.matched_count = 1
        · right
          have hstart : (TermSum.start : TermSum 𝕜).matched_count = 0 := rfl
          have hcount := hadded.matched_count
          have hlen : (infos segments field term).length = 1 := by omega
          obtain ⟨i, hi⟩ := List.length_eq_one_iff.1 hlen
          refine ⟨i, hi, ?_⟩
          dsimp only
          rw [if_pos hone, hadded.block_max, hi]
          exact List.flatMap_singleton _ _
        · exact Or.inl (if_neg hone)
  grind

variable {doc_count : ℕ} {boost : 𝕜} {compute_idf : ℕ → ℕ → 𝕜}

theorem scorer_eq {info : ReaderTermInfo 𝕜} {stats : NormStats 𝕜}
    (hinfo : term_info segments field term = some info)
    (hstats : field_stats segments field = some stats) :
    scorer segments field term doc_count boost compute_idf =
      (BM25Scorer.with_block_max info.doc_freq stats.avg_length doc_count boost
        (compute_idf info.doc_freq doc_count) info.max_score_factor
        info.block_max).with_field_lengths (some (field_lengths segments field)) := by
  rw [scorer, hinfo, hstats]

theorem scorer_of_none
    (h : term_info segments field term = none ∨ field_stats segments field = none) :
    scorer segments field term doc_count boost compute_idf =
      BM25Scorer.new 0 0 0 boost (compute_idf 0 0) := by
  rw [scorer]
  grind

end ScoredSegments

end Laurus
