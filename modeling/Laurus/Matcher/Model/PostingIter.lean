import Laurus.Posting.Model.Posting

/-!
# The posting iterator (`inverted/reader.rs`, `InvertedIndexPostingIterator`)

A cursor over a decoded list's documents, with the skip table the list
carries. Of the decoded list the iterator's movements read the documents
and the table.
-/

namespace Laurus

/-- `u64::MAX`, the document of an exhausted cursor. -/
def END : ℕ := 2 ^ 64 - 1

/-- `InvertedIndexPostingIterator`. -/
structure PostingIter where
  doc_ids : List UInt32
  skip_levels : List (List UInt32)
  position : ℕ
  started : Bool
  deriving DecidableEq, Repr

namespace PostingIter

/-- `from_decoded_soa`, over a list whose table is the one its documents
give. -/
def new (doc_ids : List UInt32) : PostingIter :=
  { doc_ids, skip_levels := build_skip_levels doc_ids, position := 0, started := false }

/-- `doc_id`. -/
def doc_id (it : PostingIter) : ℕ :=
  match it.doc_ids[it.position]? with
  | some d => d.toNat
  | none => END

/-- `next`: the first call stays on the first document. -/
def next (it : PostingIter) : Bool × PostingIter :=
  if it.doc_ids.isEmpty then (false, it)
  else if it.started then
    (decide (it.position + 1 < it.doc_ids.length), { it with position := it.position + 1 })
  else (true, { it with started := true })

/-- `slice::partition_point(|&x| x < target)`, on a slice that is partitioned. -/
def partition_point (slice : List UInt32) (target : UInt32) : ℕ :=
  slice.findIdx fun x => ¬ x < target

/-- The descent of `skip_via_levels` over the levels below the top, the next
one first: the bucket it is in and the postings it has ruled out. -/
def descend (cursor : ℕ) (target : UInt32) :
    List (List UInt32) → (step bucket_index lower : ℕ) → ℕ
  | [], _, _, lower => lower
  | lvl :: levels, step, bucket_index, lower =>
    let step := step / SKIP_INTERVAL
    let parent_lo := bucket_index * SKIP_INTERVAL
    let parent_hi := min (parent_lo + SKIP_INTERVAL) lvl.length
    -- entries strictly behind the cursor are passed over
    let lo := max (cursor / step) parent_lo
    if parent_hi ≤ lo then descend cursor target levels step (parent_hi - 1) (max lower cursor)
    else
      let slice := (lvl.drop lo).take (parent_hi - lo)
      let bucket_index := lo + partition_point slice target
      descend cursor target levels step bucket_index (bucket_index * step)

/-- `skip_via_levels`. -/
def skip_via_levels (it : PostingIter) (target : UInt32) : ℕ :=
  let n := it.doc_ids.length
  let cursor := it.position
  if n ≤ cursor then n
  else match it.skip_levels.reverse with
    | [] => cursor
    | top_lvl :: lower_levels =>
      -- `saturating_pow`
      let step := min (SKIP_INTERVAL ^ (lower_levels.length + 1)) (2 ^ 64 - 1)
      let bucket_lo := cursor / step
      if top_lvl.length ≤ bucket_lo then cursor
      else
        let bucket_index := bucket_lo + partition_point (top_lvl.drop bucket_lo) target
        let lower := descend cursor target lower_levels step bucket_index (bucket_index * step)
        min (max lower cursor) n

/-- The tail scan of `skip_to`, over the documents from the position on. -/
def scan (target : UInt32) : List UInt32 → ℕ → ℕ
  | [], position => position
  | d :: docs, position => if target ≤ d then position else scan target docs (position + 1)

/-- `skip_to`. -/
def skip_to (it : PostingIter) (target_doc_id : ℕ) : Bool × PostingIter :=
  let it := { it with started := true }
  let n := it.doc_ids.length
  if n = 0 then (false, it)
  else if 2 ^ 32 ≤ target_doc_id then (false, { it with position := n })
  else
    let target := UInt32.ofNat target_doc_id
    let start := it.skip_via_levels target
    let position := scan target (it.doc_ids.drop start) start
    (decide (position < n), { it with position })

end PostingIter

end Laurus
