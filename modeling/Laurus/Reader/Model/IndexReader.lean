import Laurus.Reader.Model.Segment

/-!
# The reader of an index (`inverted/reader.rs`, `InvertedIndexReader`)

The paths from a document id, or a term or a range, to the documents of the
segments. Each goes through the segments in its own way. A closed reader
answers `none`.
-/

namespace Laurus

/-!
## Merging posting iterators (`inverted/reader.rs`, `MergedPostingIterator`)

An iterator over a decoded list is what is left of the list. The heap is the
list of its entries; which of several least ones `pop` takes is not
specified, and here it is the first.
-/

/-- `IteratorWrapper`: the entry the iterator is on and those behind it. -/
structure IteratorWrapper where
  current : PostingEntry
  rest : List PostingEntry
  deriving DecidableEq, Repr

/-- `MergeImpl`. -/
inductive MergeImpl
  | linear (wrappers : List IteratorWrapper) (min_idx : ℕ)
  | heap (wrappers : List IteratorWrapper)
  deriving DecidableEq, Repr

/-- `MergedPostingIterator`. -/
structure MergedPostingIterator where
  inner : MergeImpl
  started : Bool
  deriving DecidableEq, Repr

/-- `LINEAR_THRESHOLD`. -/
def LINEAR_THRESHOLD : ℕ := 8

/-- The scan of `find_min_idx`, the wrappers from `i` on, and the least so far. -/
def find_min_idx_from : List IteratorWrapper → (i min_idx min_doc : ℕ) → ℕ
  | [], _, min_idx, _ => min_idx
  | w :: wrappers, i, min_idx, min_doc =>
    if w.current.doc_id < min_doc then find_min_idx_from wrappers (i + 1) i w.current.doc_id
    else find_min_idx_from wrappers (i + 1) min_idx min_doc

/-- `find_min_idx`. -/
def find_min_idx (wrappers : List IteratorWrapper) : ℕ :=
  match wrappers with
  | [] => 0
  | w :: wrappers => find_min_idx_from wrappers 1 0 w.current.doc_id

/-- `Vec::swap_remove`. -/
def swap_remove (wrappers : List IteratorWrapper) (idx : ℕ) : List IteratorWrapper :=
  match wrappers.getLast? with
  | none => wrappers
  | some last =>
    if idx + 1 = wrappers.length then wrappers.dropLast else wrappers.dropLast.set idx last

namespace MergedPostingIterator

/-- The first entry of an iterator. -/
def wrap : List PostingEntry → Option IteratorWrapper
  | [] => none
  | current :: rest => some { current, rest }

def new (iterators : List (List PostingEntry)) : MergedPostingIterator :=
  let wrappers := iterators.filterMap wrap
  let inner :=
    if wrappers.length ≤ LINEAR_THRESHOLD then .linear wrappers (find_min_idx wrappers)
    else .heap wrappers
  { inner, started := false }

/-- `current_wrapper`. -/
def current_wrapper (it : MergedPostingIterator) : Option IteratorWrapper :=
  match it.inner with
  | .linear wrappers min_idx => wrappers[min_idx]?
  | .heap wrappers => wrappers[find_min_idx wrappers]?

/-- The wrappers of the linear scan after the one at `idx` is moved on. -/
def advance_linear (wrappers : List IteratorWrapper) (idx : ℕ) : List IteratorWrapper :=
  match wrappers[idx]? with
  | none => wrappers
  | some w =>
    match wrap w.rest with
    | some moved => wrappers.set idx moved
    | none => swap_remove wrappers idx

/-- The wrappers of the heap after the top is popped, moved on and pushed. -/
def advance_heap (wrappers : List IteratorWrapper) : List IteratorWrapper :=
  match wrappers[find_min_idx wrappers]? with
  | none => wrappers
  | some w =>
    let popped := wrappers.eraseIdx (find_min_idx wrappers)
    match wrap w.rest with
    | some moved => moved :: popped
    | none => popped

/-- `advance`: whether there is an entry, and the iterator. -/
def advance (it : MergedPostingIterator) : Bool × MergedPostingIterator :=
  match it.inner with
  | .linear wrappers min_idx =>
    let wrappers := advance_linear wrappers min_idx
    (! wrappers.isEmpty, { it with inner := .linear wrappers (find_min_idx wrappers) })
  | .heap wrappers =>
    let wrappers := advance_heap wrappers
    (! wrappers.isEmpty, { it with inner := .heap wrappers })

/-- `next`: the first call stays on the first entry. -/
def next (it : MergedPostingIterator) : Bool × MergedPostingIterator :=
  if it.started then it.advance
  else
    let exhausted :=
      match it.inner with
      | .linear wrappers _ => wrappers.isEmpty
      | .heap wrappers => wrappers.isEmpty
    (! exhausted, { it with started := true })

/-- The entries that a loop over `next` is on, at most `turns`. -/
def drain : ℕ → MergedPostingIterator → List PostingEntry
  | 0, _ => []
  | turns + 1, it =>
    match it.next with
    | (false, _) => []
    | (true, it) =>
      match it.current_wrapper with
      | none => []
      | some w => w.current :: drain turns it

end MergedPostingIterator

/-- `DocValueLookup`. -/
inductive DocValueLookup (F : Type)
  | unknown
  | absent
  | value (v : F)
  deriving DecidableEq, Repr

/-- `InvertedIndexReader`; the infos are those of its segments, kept beside
them. -/
structure InvertedIndexReader (D F P : Type) where
  segment_readers : List (SegmentReader D F P)
  segment_infos : List SegmentInfo
  closed : Bool

namespace InvertedIndexReader

variable {D F P : Type}

/-- `from_segment_readers`, as `new` calls it. -/
def from_segment_readers (segment_readers : List (SegmentReader D F P)) :
    InvertedIndexReader D F P :=
  { segment_readers, segment_infos := segment_readers.map SegmentReader.info, closed := false }

variable (r : InvertedIndexReader D F P)

/-- `check_closed`. -/
def check_closed : Option Unit := if r.closed then none else some ()

/-- A segment with its range. -/
structure SegmentRange (D F P : Type) where
  min_doc_id : ℕ
  max_doc_id : ℕ
  segment : SegmentReader D F P

/-- A segment's range by its info, the whole id space without one. -/
def segment_range (info : Option SegmentInfo) (segment : SegmentReader D F P) :
    SegmentRange D F P :=
  match info with
  | some info => ⟨info.min_doc_id.toNat, info.max_doc_id.toNat, segment⟩
  | none => ⟨0, 2 ^ 64 - 1, segment⟩

/-- `segment_ranges`. -/
def segment_ranges : List (SegmentRange D F P) :=
  r.segment_readers.mapIdx fun i segment => segment_range r.segment_infos[i]? segment

/-! ## One document -/

/-- `segment_field_length`. -/
def segment_field_length (segments : List (SegmentRange D F P)) (doc_id : ℕ) (field : String) :
    Option ℕ :=
  segments.findSome? fun range =>
    if doc_id < range.min_doc_id ∨ range.max_doc_id < doc_id then none
    else range.segment.field_length doc_id field

def field_length (doc_id : ℕ) (field : String) : Option (Option ℕ) := do
  r.check_closed
  return segment_field_length r.segment_ranges doc_id field

/-- `SegmentLengths`. -/
structure SegmentLengths where
  min_doc_id : ℕ
  max_doc_id : ℕ
  deletions : Option (Finset ℕ)
  norms : NormsReader
  column : ℕ

/-- `SegmentLengths::get`. -/
def SegmentLengths.get (l : SegmentLengths) (doc_id : ℕ) : Option ℕ :=
  if doc_id < l.min_doc_id ∨ l.max_doc_id < doc_id then none
  else if (l.deletions.map fun deleted => decide (doc_id ∈ deleted)) = some true then none
  else l.norms.column_length l.column doc_id

/-- `SegmentFieldLengths::new`; a segment without the column is left out. -/
def segment_lengths (field : String) (segments : List (SegmentRange D F P)) :
    List SegmentLengths :=
  segments.filterMap fun range =>
    (range.segment.core.norms.column field).map fun column =>
      { min_doc_id := range.min_doc_id, max_doc_id := range.max_doc_id
        deletions := range.segment.deleted_docs, norms := range.segment.core.norms, column }

/-- `field_lengths`: the `get` of what it gives. -/
def field_lengths (field : String) : Option (ℕ → Option ℕ) := do
  r.check_closed
  return fun doc_id => (segment_lengths field r.segment_ranges).findSome? fun l => l.get doc_id

/-- The vote of the segments that cover a document, with their bits. -/
def vote (doc_id : ℕ) : Bool → List (SegmentReader D F P) → Bool
  | deleted, [] => deleted
  | deleted, s :: covering =>
    match s.is_deleted doc_id, s.membership.holds doc_id with
    | false, some true => false
    | true, some true => vote doc_id true covering
    | true, none => vote doc_id true covering
    | _, _ => vote doc_id deleted covering

/-- `is_deleted`. -/
def is_deleted (doc_id : ℕ) : Bool :=
  let covering := r.segment_readers.filter fun s => s.covers doc_id
  if ! (covering.any fun s => s.is_deleted doc_id) then false
  else vote doc_id false covering

def document (doc_id : ℕ) : Option (Option (StoredDocument D)) := do
  r.check_closed
  return r.segment_readers.findSome? fun s => s.document doc_id

def document_fields (doc_id : ℕ) (field_names : List String) :
    Option (Option (String → Option D)) := do
  r.check_closed
  return r.segment_readers.findSome? fun s => s.document_fields doc_id field_names

/-- `get_doc_value`. -/
def get_doc_value (field : String) (doc_id : ℕ) : Option F :=
  r.segment_readers.findSome? fun s => s.get_doc_value field doc_id

/-! ## Batches -/

/-- One segment's answer to a document that has none yet. -/
def answer_doc_value (range : SegmentRange D F P) (column : ℕ → Option F) (doc_id : ℕ)
    (answer : DocValueLookup F) : DocValueLookup F :=
  match answer with
  | .unknown =>
    if ¬ (range.min_doc_id ≤ doc_id ∧ doc_id ≤ range.max_doc_id) then .unknown
    else if range.segment.is_deleted doc_id then .unknown
    else
      match column doc_id with
      | some v => .value v
      | none =>
        if range.segment.membership.holds doc_id = some true then .absent else .unknown
  | answer => answer

/-- One segment's turn in `doc_values_batch`. -/
def answer_doc_values (field : String) (doc_ids : List ℕ) (answers : List (DocValueLookup F))
    (range : SegmentRange D F P) : List (DocValueLookup F) :=
  match range.segment.doc_values_column field with
  | none => answers
  | some column => List.zipWith (answer_doc_value range column) doc_ids answers

def doc_values_batch (field : String) (doc_ids : List ℕ) : Option (List (DocValueLookup F)) := do
  r.check_closed
  return r.segment_ranges.foldl (answer_doc_values field doc_ids)
    (doc_ids.map fun _ => .unknown)

/-! ## The whole index -/

/-- `doc_count`. -/
def doc_count : ℕ := (r.segment_readers.map SegmentReader.doc_count).sum

def live_doc_ids : Option (List ℕ) := do
  r.check_closed
  let live := r.segment_readers.foldl (fun live s => live ∪ s.live_doc_ids) ∅
  return live.sort (· ≤ ·)

/-- `postings`, as the entries that a loop over the iterator is on; the inner
`none` where no segment has the term. -/
def postings (field term : String) : Option (Option (List PostingEntry)) := do
  r.check_closed
  let iterators := r.segment_readers.filterMap fun s => s.postings field term
  match iterators with
  | [] => return none
  | [entries] => return some entries
  | _ =>
    let merged := MergedPostingIterator.new iterators
    return some (merged.drain ((iterators.map List.length).sum + 1))

/-- `get_bkd_tree`: the filtered trees, in the order in which they are walked. -/
def get_bkd_tree (field : String) : Option (Option (List (List (ℕ × P)))) := do
  r.check_closed
  let trees := r.segment_readers.filterMap fun s => s.get_filtered_bkd_tree field
  return if trees.isEmpty then none else some trees

/-- `range_search` of `get_bkd_tree`: the documents of the points that match,
sorted and each once. -/
def range_search (field : String) (hits : P → Bool) : Option (List ℕ) := do
  let trees ← r.get_bkd_tree field
  match trees with
  | none => return []
  | some trees =>
    return ((trees.flatten.filter fun point => hits point.2).map Prod.fst).toFinset.sort (· ≤ ·)

/-- The counts of the list at a key. -/
def list_counts (s : SegmentReader D F P) (key : String) : ℕ × ℕ :=
  ((s.core.posting_lists key).length, ((s.core.posting_lists key).map PostingEntry.frequency).sum)

/-- `terms`, as what a loop over the iterator sees. -/
def terms (field : String) : Option (List TermStats) :=
  let cursors := r.segment_readers.filterMap fun s =>
    s.core.dictionary.map fun dict => InvertedIndexTermsEnum.new field dict (list_counts s)
  let turns := (cursors.map fun e => e.dict.sorted_terms.length).sum + 1
  match cursors with
  | [] => none
  | [cursor] => some (cursor.drain turns)
  | _ => some ((MergedTermsEnum.new cursors).drain turns)

end InvertedIndexReader

end Laurus
