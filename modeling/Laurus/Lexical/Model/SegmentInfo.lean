import Mathlib.Data.List.Basic
import Mathlib.Data.UInt

/-!
# Segments of the inverted index (`lexical/index/inverted/segment.rs`)
-/

namespace Laurus

/-!
## Term dictionaries (`lexical/index/structures/dictionary.rs`)

The query layer of a loaded dictionary, as its terms. They are in strictly
ascending order: the builder takes them from a `BTreeMap`, and loading refuses
any other order. A `str` is ordered by its bytes, which is the order of its
characters.
-/

/-- `BlockTermDictionary`. -/
structure BlockTermDictionary where
  sorted_terms : List String
  ascending : sorted_terms.Pairwise (· < ·)

namespace BlockTermDictionary

/-- `seek_index`: the `partition_point` of the terms below `target`. -/
def seek_index (dictionary : BlockTermDictionary) (target : String) : ℕ :=
  dictionary.sorted_terms.findIdx fun term => ¬ term < target

/-- `entry_at`, the term. -/
def entry_at (dictionary : BlockTermDictionary) (idx : ℕ) : Option String :=
  dictionary.sorted_terms[idx]?

end BlockTermDictionary

/-- `SegmentInfo`. -/
structure SegmentInfo where
  segment_id : String
  doc_count : UInt64
  min_doc_id : UInt64
  max_doc_id : UInt64
  generation : UInt64
  has_deletions : Bool
  /-- `none`: not recorded. -/
  deleted_count : Option UInt64
  shard_id : UInt16
  deriving DecidableEq, Repr

/-- `SegmentKey`: what identifies a segment's contents, its deletions apart. -/
structure SegmentKey where
  segment_id : String
  min_doc_id : UInt64
  max_doc_id : UInt64
  doc_count : UInt64
  deriving DecidableEq, Repr

/-- `SegmentKey::of`. -/
def SegmentKey.of (info : SegmentInfo) : SegmentKey :=
  { segment_id := info.segment_id, min_doc_id := info.min_doc_id, max_doc_id := info.max_doc_id,
    doc_count := info.doc_count }

end Laurus
