import Laurus.Common.Chunks
import Laurus.Lexical.Model.Norms
import Laurus.Posting.Model.Format
import Laurus.Search.Model.Scorer
import Mathlib

/-!
# Score bounds of terms (`inverted/writer.rs`, `inverted/reader.rs`)

The bounds that a flush puts into its dictionary, and what the reader of
several segments makes of them for the scorer of a term. Factors, averages
and scores are exact, in an ordered field. Of a dictionary the map from keys
to infos is here; the reader's cache of the infos is left out, and its
`doc_count` is a parameter.
-/

namespace Laurus

/-- `TermInfo`. -/
structure TermInfo (𝕜 : Type) where
  posting_offset : ℕ
  posting_length : ℕ
  doc_frequency : UInt64
  total_frequency : UInt64
  max_score_factor : 𝕜
  block_max : List (BlockMax 𝕜)

/-- The terms of a `TermDictionaryBuilder`. -/
abbrev TermInfos (𝕜 : Type) := AList fun _ : String => TermInfo 𝕜

/-- `BLOCK_SIZE`. -/
def BLOCK_SIZE : ℕ := 128

/-- `split_once`. -/
def split_once (s : String) (delimiter : Char) : Option (String × String) :=
  match s.toList.dropWhile fun c => c != delimiter with
  | [] => none
  | _ :: rest =>
    some (String.ofList (s.toList.takeWhile fun c => c != delimiter), String.ofList rest)

/-! ## The flush -/

namespace InvertedIndexWriter

variable {𝕜 : Type} [Field 𝕜] [LinearOrder 𝕜]

def K1 : 𝕜 := (6 : ℕ) / (5 : ℕ)

def B : 𝕜 := (3 : ℕ) / (4 : ℕ)

/-- The ratio of a length to the average of its segment. -/
def len_ratio (field_len avg_field_length : 𝕜) : 𝕜 :=
  if 0 < avg_field_length then field_len / avg_field_length else 1

/-- The factor of one posting, `none` where the loop goes on. -/
def posting_factor (norms : NormsBuilder) (field_name : String) (avg_field_length : 𝕜)
    (posting : Posting) : Option 𝕜 :=
  let tf : 𝕜 := posting.frequency.toNat
  if tf = 0 then none
  else
    let field_len : 𝕜 := ((norms.decoded_length posting.doc_id field_name).getD 0).toNat
    let denom := tf + K1 * (1 - B + B * len_ratio field_len avg_field_length)
    if denom = 0 then none else some (tf * (K1 + 1) / denom)

/-- The greater of the maximum so far and a factor. -/
def raise (max_factor : 𝕜) (factor : Option 𝕜) : 𝕜 :=
  match factor with
  | some factor => if max_factor < factor then factor else max_factor
  | none => max_factor

/-- The loop over some postings. -/
def max_factor (norms : NormsBuilder) (field_name : String) (avg_field_length : 𝕜)
    (postings : List Posting) : 𝕜 :=
  (postings.map (posting_factor norms field_name avg_field_length)).foldl raise 0

/-- `compute_term_max_score_factor`. -/
def compute_term_max_score_factor (posting_list : PostingList) (field_name : String)
    (avg_field_length : 𝕜) (norms : NormsBuilder) : 𝕜 :=
  max_factor norms field_name avg_field_length posting_list.postings

/-- The bound of one block. -/
def block_bound (norms : NormsBuilder) (field_name : String) (avg_field_length : 𝕜)
    (chunk : List Posting) : BlockMax 𝕜 where
  last_doc_id := ((chunk.getLast?.map Posting.doc_id).getD 0).toNat
  max_factor := max_factor norms field_name avg_field_length chunk

/-- `compute_term_block_max`. -/
def compute_term_block_max (posting_list : PostingList) (field_name : String)
    (avg_field_length : 𝕜) (norms : NormsBuilder) : List (BlockMax 𝕜) :=
  (chunks BLOCK_SIZE posting_list.postings).map (block_bound norms field_name avg_field_length)

/-- The bounds of a key: of the field before its first colon. -/
def term_bounds (norms : NormsBuilder) (term : String) (posting_list : PostingList) :
    𝕜 × List (BlockMax 𝕜) :=
  match split_once term ':' with
  | some (field_name, _) =>
    let avg_len := norms.avg_length 𝕜 field_name
    (compute_term_max_score_factor posting_list field_name avg_len norms,
      compute_term_block_max posting_list field_name avg_len norms)
  | none => (0, [])

variable (packer : BitPacker)

open PostingList

/-- One turn of the loop over the terms. -/
def write_term (norms : NormsBuilder) (inverted_index : TermPostingIndex) (term : String)
    (dict : TermInfos 𝕜) : Write (TermInfos 𝕜) :=
  match inverted_index.get_posting_list term with
  | none => return dict
  | some posting_list => do
    let start ← get
    encode_header_and_payload packer posting_list .V3
    let written ← get
    let bounds := term_bounds norms term posting_list
    return dict.insert term {
      posting_offset := start.position
      posting_length := written.position - start.position
      doc_frequency := posting_list.doc_frequency
      total_frequency := posting_list.total_frequency
      max_score_factor := bounds.1
      block_max := bounds.2 }

/-- The loop. -/
def write_terms (norms : NormsBuilder) (inverted_index : TermPostingIndex) :
    List String → TermInfos 𝕜 → Write (TermInfos 𝕜)
  | [], dict => return dict
  | term :: terms, dict => do
    let dict ← write_term packer norms inverted_index term dict
    write_terms norms inverted_index terms dict

/-- `write_inverted_index`: the postings, and the dictionary for them. -/
def write_inverted_index (norms : NormsBuilder) (inverted_index : TermPostingIndex) :
    Write (TermInfos 𝕜) :=
  write_terms packer norms inverted_index
    ((inverted_index.terms.map Prod.fst).mergeSort fun a b => decide (a ≤ b)) ∅

end InvertedIndexWriter

/-! ## The reader -/

/-- What a scorer reads of a `SegmentReader`. -/
structure ScoredSegment (𝕜 : Type) where
  min_doc_id : UInt64
  max_doc_id : UInt64
  dictionary : TermInfos 𝕜
  norms : LoadedNorms
  deleted_docs : Option (Finset UInt64)

namespace ScoredSegment

variable {𝕜 : Type} [Field 𝕜]

/-- `term_info`. -/
def term_info (s : ScoredSegment 𝕜) (field term : String) : Option (TermInfo 𝕜) :=
  s.dictionary.lookup (SegmentReader.term_key field term)

/-- `field_stats`. -/
def field_stats (s : ScoredSegment 𝕜) (field : String) : Option (NormStats 𝕜) :=
  s.norms.field_stats 𝕜 field

/-- `is_deleted`. -/
def is_deleted (s : ScoredSegment 𝕜) (doc_id : UInt64) : Bool :=
  (s.deleted_docs.map fun deleted => decide (doc_id ∈ deleted)).getD false

/-- `SegmentLengths::get`, of the segment's column. -/
def get_length (s : ScoredSegment 𝕜) (column : ℕ) (doc_id : UInt64) : Option UInt32 :=
  if doc_id < s.min_doc_id ∨ s.max_doc_id < doc_id then none
  else if s.is_deleted doc_id then none
  else s.norms.column_length column doc_id

end ScoredSegment

/-- `ReaderTermInfo`. -/
structure ReaderTermInfo (𝕜 : Type) where
  field : String
  term : String
  doc_freq : ℕ
  total_freq : ℕ
  posting_offset : ℕ
  posting_size : ℕ
  max_score_factor : 𝕜
  block_max : List (BlockMax 𝕜)

/-- What the loop of `term_info` adds up. -/
structure TermSum (𝕜 : Type) where
  total_doc_freq : ℕ
  total_term_freq : ℕ
  max_score_factor : 𝕜
  matched_count : ℕ
  combined_block_max : List (BlockMax 𝕜)
  min_matched_avg : Option 𝕜

/-- What the loop of `field_stats` adds up. -/
structure StatsSum (𝕜 : Type) where
  total_doc_count : ℕ
  total_length_sum : 𝕜
  min_length : ℕ
  max_length : ℕ
  found : Bool

namespace ScoredSegments

variable {𝕜 : Type} [Field 𝕜] [LinearOrder 𝕜]

def TermSum.start : TermSum 𝕜 where
  total_doc_freq := 0
  total_term_freq := 0
  max_score_factor := 0
  matched_count := 0
  combined_block_max := []
  min_matched_avg := none

/-- The smaller of the average so far and a segment's, where it has one. -/
def min_avg (min_matched_avg : Option 𝕜) (stats : Option (NormStats 𝕜)) : Option 𝕜 :=
  match stats with
  | some stats => some (min_matched_avg.elim stats.avg_length fun m => min m stats.avg_length)
  | none => min_matched_avg

/-- One segment's turn in `term_info`, the frequencies saturating. -/
def add_term_info (field term : String) (sum : TermSum 𝕜) (s : ScoredSegment 𝕜) : TermSum 𝕜 :=
  match s.term_info field term with
  | none => sum
  | some info =>
    { total_doc_freq := min (sum.total_doc_freq + info.doc_frequency.toNat) (2 ^ 64 - 1)
      total_term_freq := min (sum.total_term_freq + info.total_frequency.toNat) (2 ^ 64 - 1)
      max_score_factor := max sum.max_score_factor info.max_score_factor
      matched_count := sum.matched_count + 1
      combined_block_max := sum.combined_block_max ++ info.block_max
      min_matched_avg := min_avg sum.min_matched_avg (s.field_stats field) }

/-- One segment's turn in `field_stats`. -/
def add_stats (field : String) (sum : StatsSum 𝕜) (s : ScoredSegment 𝕜) : StatsSum 𝕜 :=
  match s.field_stats field with
  | none => sum
  | some stats =>
    { total_doc_count := sum.total_doc_count + stats.doc_count
      total_length_sum := sum.total_length_sum + stats.avg_length * (stats.doc_count : 𝕜)
      min_length := min sum.min_length stats.min_length
      max_length := max sum.max_length stats.max_length
      found := true }

/-- `field_stats`. -/
def field_stats (segments : List (ScoredSegment 𝕜)) (field : String) : Option (NormStats 𝕜) :=
  let sum := segments.foldl (add_stats field) ⟨0, 0, 2 ^ 64 - 1, 0, false⟩
  if sum.found then
    some
      { doc_count := sum.total_doc_count
        avg_length := if 0 < sum.total_doc_count
          then sum.total_length_sum / (sum.total_doc_count : 𝕜) else 0
        min_length := if sum.min_length = 2 ^ 64 - 1 then 0 else sum.min_length
        max_length := sum.max_length }
  else none

/-- The soundness guard, over the average that a query scores with. -/
def guard_bounds (min_matched_avg : Option 𝕜) (global_stats : Option (NormStats 𝕜))
    (bounds : 𝕜 × List (BlockMax 𝕜)) : 𝕜 × List (BlockMax 𝕜) :=
  match min_matched_avg, global_stats with
  | some min_avg, some global_stats =>
    if global_stats.avg_length ≤ min_avg then bounds else (0, [])
  | _, _ => (0, [])

/-- `term_info`. -/
def term_info (segments : List (ScoredSegment 𝕜)) (field term : String) :
    Option (ReaderTermInfo 𝕜) :=
  let sum := segments.foldl (add_term_info field term) TermSum.start
  let aggregated_block_max := if sum.matched_count = 1 then sum.combined_block_max else []
  let bounds := guard_bounds sum.min_matched_avg (field_stats segments field)
    (sum.max_score_factor, aggregated_block_max)
  if 0 < sum.matched_count then
    some
      { field
        term
        doc_freq := sum.total_doc_freq
        total_freq := sum.total_term_freq
        posting_offset := 0
        posting_size := 0
        max_score_factor := bounds.1
        block_max := bounds.2 }
  else none

/-- `field_lengths`: the `get` of what it gives, over the segments with a
column. -/
def field_lengths (segments : List (ScoredSegment 𝕜)) (field : String) (doc_id : ℕ) : Option ℕ :=
  (segments.findSome? fun s =>
    (s.norms.column field).bind fun column => s.get_length column (UInt64.ofNat doc_id)).map
      UInt32.toNat

/-- `TermQuery::scorer`; `compute_idf` is the value that the constructor
computes. -/
def scorer (segments : List (ScoredSegment 𝕜)) (field term : String) (doc_count : ℕ) (boost : 𝕜)
    (compute_idf : ℕ → ℕ → 𝕜) : BM25Scorer 𝕜 :=
  match term_info segments field term, field_stats segments field with
  | some term_info, some field_stats =>
    (BM25Scorer.with_block_max term_info.doc_freq field_stats.avg_length doc_count boost
      (compute_idf term_info.doc_freq doc_count) term_info.max_score_factor
      term_info.block_max).with_field_lengths (some (field_lengths segments field))
  | _, _ => BM25Scorer.new 0 0 0 boost (compute_idf 0 0)

end ScoredSegments

end Laurus
