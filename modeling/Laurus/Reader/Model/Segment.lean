import Laurus.Lexical.Model.SegmentInfo
import Mathlib.Data.Finset.Max
import Mathlib.Data.Finset.Sort
import Mathlib.Data.String.Basic
import Mathlib.Order.Interval.Finset.Nat

/-!
# The reader of one segment (`inverted/reader.rs`, `SegmentReader`)

`SegmentCore` has the parts of a segment as they load, and what the writer
of the parts sees to: that each speaks of the segment's documents only. Of a
part the paths to a document read what is here; the values of a document
(`D`), of its DocValues (`F`) and of its points (`P`) are any types. The
posting cache holds what `postings` computes and is left out, as are the
errors of a corrupt part.
-/

namespace Laurus

/-!
## What a segment holds (`inverted/segment.rs`, `Membership`)

A `RoaringTreemap` is a finite set of document ids. A set that is not
recorded and one that cannot be read are both `none`.
-/

/-- `range_width`: `none` on overflow or an inverted range. -/
def range_width (min_doc_id max_doc_id : ℕ) : Option ℕ :=
  if max_doc_id < min_doc_id then none
  else if max_doc_id - min_doc_id + 1 < 2 ^ 64 then some (max_doc_id - min_doc_id + 1)
  else none

/-- `Membership`. -/
inductive Membership
  | empty
  | range
  | set (ids : Finset ℕ)
  | unknown
  deriving DecidableEq

namespace Membership

def from_shape (min_doc_id max_doc_id doc_count : ℕ) : Option Membership :=
  if doc_count = 0 then some .empty
  else if range_width min_doc_id max_doc_id = some doc_count then some .range
  else none

/-- `from_loaded`: a set that disagrees with the count and the range is not
trusted. -/
def from_loaded (min_doc_id max_doc_id doc_count : ℕ) (loaded : Option (Finset ℕ)) :
    Membership :=
  match loaded with
  | some ids =>
    if ids.card = doc_count ∧ ids.min = WithTop.some min_doc_id ∧
        ids.max = WithBot.some max_doc_id then .set ids
    else .unknown
  | none => .unknown

def holds (m : Membership) (doc_id : ℕ) : Option Bool :=
  match m with
  | empty => some false
  | range => some true
  | set ids => some (decide (doc_id ∈ ids))
  | unknown => none

/-- `range_cardinality`. -/
def range_cardinality (deleted : Finset ℕ) (min_doc_id max_doc_id : ℕ) : ℕ :=
  (deleted.filter fun d => min_doc_id ≤ d ∧ d ≤ max_doc_id).card

def held_deletions (m : Membership) (deleted : Finset ℕ)
    (min_doc_id max_doc_id doc_count : ℕ) : ℕ :=
  match m with
  | empty => 0
  | range => range_cardinality deleted min_doc_id max_doc_id
  | set ids => (deleted ∩ ids).card
  | unknown =>
    let gaps := (range_width min_doc_id max_doc_id).getD (2 ^ 64 - 1) - doc_count
    range_cardinality deleted min_doc_id max_doc_id - gaps

end Membership

/-- `Document`, by its `fields`. -/
structure StoredDocument (D : Type) where
  fields : String → Option D

/-- The fields asked for. -/
def StoredDocument.restrict {D : Type} (doc : StoredDocument D) (field_names : List String) :
    String → Option D := fun name => if name ∈ field_names then doc.fields name else none

/-- A row of a `DecodedPostingList`. -/
structure PostingEntry where
  doc_id : ℕ
  frequency : ℕ
  positions : Option (List ℕ)
  deriving DecidableEq, Repr

/-! ## Field lengths (`structures/norms.rs`) -/

/-- `SlotMap`. -/
inductive SlotMap
  | contiguous (min_doc_id count : ℕ)
  | sparse (ids : List ℕ)

namespace SlotMap

/-- `slot_of`; the binary search over ascending ids is a search. -/
def slot_of (m : SlotMap) (doc_id : ℕ) : Option ℕ :=
  match m with
  | contiguous min_doc_id count =>
    if doc_id < min_doc_id then none
    else if doc_id - min_doc_id < count then some (doc_id - min_doc_id) else none
  | sparse ids => ids.findIdx? fun id => id == doc_id

/-- The documents that have a slot. -/
def docs (m : SlotMap) : Finset ℕ :=
  match m with
  | contiguous min_doc_id count => Finset.Ico min_doc_id (min_doc_id + count)
  | sparse ids => ids.toFinset

end SlotMap

/-- `NormsField`, the norms decoded; `none` where all are present. -/
structure NormsField where
  presence : Option (List Bool)
  norms : List ℕ

/-- `NormsReader`. -/
structure NormsReader where
  slot_map : SlotMap
  columns : List NormsField
  column_index : String → Option ℕ

namespace NormsReader

def column (r : NormsReader) (field : String) : Option ℕ := r.column_index field

def column_length (r : NormsReader) (column doc_id : ℕ) : Option ℕ := do
  let f ← r.columns[column]?
  let slot ← r.slot_map.slot_of doc_id
  let present :=
    match f.presence with
    | none => true
    | some bits => bits.getD slot false
  if present then f.norms[slot]? else none

def field_length (r : NormsReader) (doc_id : ℕ) (field : String) : Option ℕ := do
  let column ← r.column field
  r.column_length column doc_id

end NormsReader

/-! ## The parts -/

/-- `SegmentCore`. `docs` are the keys of the stored documents; `posting_lists`
gives the list that the dictionary's entry for a key leads to. -/
structure SegmentCore (D F P : Type) where
  key : SegmentKey
  docs : Finset ℕ
  documents : ℕ → StoredDocument D
  /-- `.ids`, or the slot map of `.norms`. -/
  ids_part : Option (Finset ℕ)
  doc_values : String → Option (ℕ → Option F)
  norms : NormsReader
  /-- `.dict`. -/
  dictionary : Option BlockTermDictionary
  /-- Whether there is a `.post`. -/
  has_postings : Bool
  posting_lists : String → List PostingEntry
  bkd_trees : String → Option (List (ℕ × P))
  docs_covered : ∀ d ∈ docs, key.min_doc_id.toNat ≤ d ∧ d ≤ key.max_doc_id.toNat
  docs_card : docs.card = key.doc_count.toNat
  ids_eq : ∀ ids, ids_part = some ids → ids = docs
  values_held : ∀ field column d, doc_values field = some column → (column d).isSome → d ∈ docs
  norms_held : norms.slot_map.docs ⊆ docs
  lists_held : ∀ key, ∀ entry ∈ posting_lists key, entry.doc_id ∈ docs
  lists_ascending : ∀ key, (posting_lists key).Pairwise fun a b => a.doc_id < b.doc_id
  bkd_held : ∀ field tree, bkd_trees field = some tree → ∀ point ∈ tree, point.1 ∈ docs

/-- `SegmentReader`. The deleted documents are those of its `.delmap`; the
analyzer gives the terms of a stored value with their positions. -/
structure SegmentReader (D F P : Type) where
  info : SegmentInfo
  core : SegmentCore D F P
  deleted_docs : Option (Finset ℕ)
  analyzer : String → D → List (String × ℕ)
  key_eq : core.key = SegmentKey.of info

namespace SegmentReader

variable {D F P : Type} (s : SegmentReader D F P)

def min_doc_id : ℕ := s.info.min_doc_id.toNat

def max_doc_id : ℕ := s.info.max_doc_id.toNat

/-- The documents in the range of `info`. -/
def covers (doc_id : ℕ) : Bool := s.min_doc_id ≤ doc_id ∧ doc_id ≤ s.max_doc_id

/-- `membership`. -/
def membership : Membership :=
  (Membership.from_shape s.min_doc_id s.max_doc_id s.info.doc_count.toNat).getD
    (.from_loaded s.min_doc_id s.max_doc_id s.info.doc_count.toNat s.core.ids_part)

/-- `is_deleted`. -/
def is_deleted (doc_id : ℕ) : Bool :=
  match s.deleted_docs with
  | some deleted => decide (doc_id ∈ deleted)
  | none => false

/-- `doc_ids`, deleted ones included. -/
def doc_ids : Finset ℕ := s.core.docs

def live_doc_ids : Finset ℕ :=
  let held :=
    match s.membership with
    | .empty => ∅
    | .range => Finset.Icc s.min_doc_id s.max_doc_id
    | .set ids => ids
    | .unknown => s.doc_ids
  match s.deleted_docs with
  | some deleted => held \ deleted
  | none => held

/-- `doc_count`. -/
def doc_count : ℕ :=
  match s.deleted_docs with
  | none => s.info.doc_count.toNat
  | some deleted =>
    s.info.doc_count.toNat - s.membership.held_deletions deleted s.min_doc_id s.max_doc_id
      s.info.doc_count.toNat

def doc_values_column (field : String) : Option (ℕ → Option F) := s.core.doc_values field

def get_doc_value (field : String) (doc_id : ℕ) : Option F :=
  if s.is_deleted doc_id then none
  else do
    let column ← s.core.doc_values field
    column doc_id

def field_length (doc_id : ℕ) (field : String) : Option ℕ :=
  if s.is_deleted doc_id then none else s.core.norms.field_length doc_id field

/-- `document`. -/
def document (doc_id : ℕ) : Option (StoredDocument D) :=
  if s.is_deleted doc_id then none
  else if doc_id ∈ s.core.docs then some (s.core.documents doc_id) else none

/-- `document_fields`. -/
def document_fields (doc_id : ℕ) (field_names : List String) : Option (String → Option D) :=
  if s.is_deleted doc_id then none
  else if doc_id ∈ s.core.docs then some ((s.core.documents doc_id).restrict field_names)
  else none

/-- The key of a term in a dictionary. -/
def term_key (field term : String) : String := field ++ ":" ++ term

/-- Whether the dictionary has a key. -/
def has_key (key : String) : Bool :=
  match s.core.dictionary with
  | some dictionary => dictionary.sorted_terms.contains key
  | none => false

/-- The posting of one stored document, by its analyzed terms. -/
def scan_document (field term : String) (doc_id : ℕ) : Option PostingEntry := do
  let value ← (s.core.documents doc_id).fields field
  let positions := ((s.analyzer field value).filter fun t => t.1 = term).map Prod.snd
  if positions.isEmpty then none
  else some { doc_id, frequency := positions.length, positions := some positions }

/-- `scan_documents_for_term`, the documents that are found. -/
def scan_documents_for_term (field term : String) : List PostingEntry :=
  (s.core.docs.sort (· ≤ ·)).filterMap fun doc_id =>
    if s.is_deleted doc_id then none else s.scan_document field term doc_id

/-- `filter_deleted_soa`. -/
def filter_deleted_soa (decoded : List PostingEntry) : List PostingEntry :=
  match s.deleted_docs with
  | none => decoded
  | some deleted => decoded.filter fun entry => entry.doc_id ∉ deleted

/-- `postings`: the entries that the iterator goes through, `none` where there
are none. -/
def postings (field term : String) : Option (List PostingEntry) :=
  let found :=
    if ! s.core.has_postings then s.scan_documents_for_term field term
    else if s.has_key (term_key field term) then
      s.filter_deleted_soa (s.core.posting_lists (term_key field term))
    else []
  if found.isEmpty then none else some found

/-- `get_filtered_bkd_tree`: the points of a tree, by way of the deletion
snapshot of this segment. -/
def get_filtered_bkd_tree (field : String) : Option (List (ℕ × P)) := do
  let tree ← s.core.bkd_trees field
  match s.deleted_docs with
  | none => return tree
  | some deleted =>
    return tree.filter fun point => ! (s.covers point.1 && decide (point.1 ∈ deleted))

end SegmentReader

/-!
## Enumerating the terms of a field (`inverted/core/terms.rs`)

A cursor over the keys of one dictionary that start with the field, and the
merge of the segments' cursors. The counts of a term are those of its list.
-/

/-- `TermStats`. -/
structure TermStats where
  term : String
  doc_freq : ℕ
  total_term_freq : ℕ
  deriving DecidableEq, Repr

/-- `u64::saturating_add`. -/
def saturating_add (a b : ℕ) : ℕ := min (a + b) (2 ^ 64 - 1)

/-- `InvertedIndexTermsEnum`. -/
structure InvertedIndexTermsEnum where
  dict : BlockTermDictionary
  /-- The counts of the list at a key. -/
  counts : String → ℕ × ℕ
  field_key : String
  position : ℕ

namespace InvertedIndexTermsEnum

def new (field : String) (dict : BlockTermDictionary) (counts : String → ℕ × ℕ) :
    InvertedIndexTermsEnum :=
  let field_key := field ++ ":"
  { dict, counts, field_key, position := dict.seek_index field_key }

/-- `str::strip_prefix`. -/
def strip_field_key (field_key key : String) : Option String :=
  if field_key.toList.isPrefixOf key.toList then
    some (String.ofList (key.toList.drop field_key.toList.length))
  else none

/-- `stats_at`. -/
def stats_at (e : InvertedIndexTermsEnum) (idx : ℕ) : Option TermStats := do
  let key ← e.dict.entry_at idx
  let term ← strip_field_key e.field_key key
  return { term, doc_freq := (e.counts key).1, total_term_freq := (e.counts key).2 }

/-- `next`. -/
def next (e : InvertedIndexTermsEnum) : Option TermStats × InvertedIndexTermsEnum :=
  match e.stats_at e.position with
  | some stats => (some stats, { e with position := e.position + 1 })
  | none => (none, e)

/-- What a loop over `next` sees, at most `turns` entries. -/
def drain : ℕ → InvertedIndexTermsEnum → List TermStats
  | 0, _ => []
  | turns + 1, e =>
    match e.next with
    | (none, _) => []
    | (some stats, e) => stats :: drain turns e

end InvertedIndexTermsEnum

/-- `MergedTermsEnum`: each child with the entry pulled from it. -/
structure MergedTermsEnum where
  children : List (Option TermStats × InvertedIndexTermsEnum)

namespace MergedTermsEnum

def new (cursors : List InvertedIndexTermsEnum) : MergedTermsEnum :=
  { children := cursors.map InvertedIndexTermsEnum.next }

/-- The pulled entries. -/
def heads (e : MergedTermsEnum) : List TermStats := e.children.filterMap Prod.fst

/-- The counts of the heads of a term, added up. -/
def add_counts (merged stats : TermStats) : TermStats :=
  if stats.term = merged.term then
    { merged with
      doc_freq := saturating_add merged.doc_freq stats.doc_freq
      total_term_freq := saturating_add merged.total_term_freq stats.total_term_freq }
  else merged

/-- `peek_merged`. -/
def peek_merged (e : MergedTermsEnum) : Option TermStats := do
  let term ← (e.heads.map TermStats.term).min?
  return e.heads.foldl add_counts { term, doc_freq := 0, total_term_freq := 0 }

/-- `advance_heads_matching`. -/
def advance_heads_matching (e : MergedTermsEnum) (term : String) : MergedTermsEnum :=
  { children := e.children.map fun child =>
      if child.1.map TermStats.term = some term then child.2.next else child }

/-- `next`. -/
def next (e : MergedTermsEnum) : Option (TermStats × MergedTermsEnum) := do
  let stats ← e.peek_merged
  return (stats, e.advance_heads_matching stats.term)

/-- What a loop over `next` sees, at most `turns` entries. -/
def drain : ℕ → MergedTermsEnum → List TermStats
  | 0, _ => []
  | turns + 1, e =>
    match e.next with
    | none => []
    | some (stats, e) => stats :: drain turns e

end MergedTermsEnum

end Laurus
