import Laurus.Common.PriorityHeap
import Laurus.Matcher.Model.PostingIter
import Laurus.Posting.Model.Format

/-!
# The merge as a cursor (`inverted/reader.rs`, `MergedPostingIterator`)

The merged iterator over the iterators themselves, each with the document it
was last seen on, and with `skip_to`. An operation that indexes out of range
is `none`. The heap pops any least entry; its `BinaryHeap` is filled by
pushes, and `LINEAR_THRESHOLD` is a parameter.
-/

namespace Laurus

/-! ## The iterator over a decoded list -/

/-- `InvertedIndexPostingIterator`. -/
structure InvertedIndexPostingIterator where
  data : DecodedPostingList
  position : ℕ
  started : Bool
  deriving DecidableEq, Repr

namespace InvertedIndexPostingIterator

def from_decoded_soa (data : DecodedPostingList) : InvertedIndexPostingIterator :=
  { data, position := 0, started := false }

/-- What its movements read. -/
def cursor (it : InvertedIndexPostingIterator) : PostingIter where
  doc_ids := it.data.doc_ids
  skip_levels := it.data.skip_levels
  position := it.position
  started := it.started

def doc_id (it : InvertedIndexPostingIterator) : ℕ := it.cursor.doc_id

def term_freq (it : InvertedIndexPostingIterator) : ℕ :=
  match it.data.frequencies[it.position]? with
  | some frequency => frequency.toNat
  | none => 0

def positions (it : InvertedIndexPostingIterator) : Option (List ℕ) :=
  if it.data.doc_ids.length ≤ it.position then some []
  else
    match it.data.positions with
    | none => some []
    | some per_doc =>
      per_doc[it.position]?.map fun positions => (positions.getD []).map UInt32.toNat

def next (it : InvertedIndexPostingIterator) : Bool × InvertedIndexPostingIterator :=
  (it.cursor.next.1,
    { it with position := it.cursor.next.2.position, started := it.cursor.next.2.started })

end InvertedIndexPostingIterator

/-! ## The merge -/

/-- `IteratorWrapper`. -/
structure PostingWrapper where
  iter : InvertedIndexPostingIterator
  current_doc : ℕ
  deriving DecidableEq, Repr

/-- `IteratorWrapper::cmp`: the least document is the greatest entry. -/
def PostingWrapper.le (a b : PostingWrapper) : Prop := b.current_doc ≤ a.current_doc

/-- `MergeImpl`. -/
inductive CursorImpl
  | linear (wrappers : List PostingWrapper) (min_idx : ℕ)
  | heap (wrappers : List PostingWrapper)
  deriving DecidableEq, Repr

/-- `MergedPostingIterator`. -/
structure MergedCursor where
  inner : CursorImpl
  current_doc : ℕ
  started : Bool
  deriving DecidableEq, Repr

namespace MergedCursor

/-- An iterator moved on: it is kept while it is on a document. -/
def moved (iter : InvertedIndexPostingIterator) : Option PostingWrapper :=
  if iter.next.1 then some { iter := iter.next.2, current_doc := iter.next.2.doc_id } else none

/-- `find_min_idx`. -/
def least_wrapper (wrappers : List PostingWrapper) : ℕ :=
  least_index PostingWrapper.current_doc wrappers

variable (heap : PriorityHeap PostingWrapper PostingWrapper.le)

/-- The document of the current wrapper; `u64::MAX` of none. -/
def top_doc (top : Option PostingWrapper) : ℕ := (top.map PostingWrapper.current_doc).getD END

/-- The linear scan over these wrappers. -/
def linear_at (wrappers : List PostingWrapper) (started : Bool) : MergedCursor where
  inner := .linear wrappers (least_wrapper wrappers)
  current_doc := top_doc wrappers[least_wrapper wrappers]?
  started := started

/-- The heap of these wrappers. -/
def heap_at (wrappers : List PostingWrapper) (started : Bool) : MergedCursor where
  inner := .heap wrappers
  current_doc := top_doc (heap.peek wrappers)
  started := started

def new (threshold : ℕ) (iterators : List InvertedIndexPostingIterator) : MergedCursor :=
  let wrappers := iterators.filterMap moved
  if wrappers.length ≤ threshold then linear_at wrappers false
  else heap_at heap (wrappers.foldl (fun entries w => w :: entries) []) false

/-- `current_wrapper`. -/
def current_wrapper (it : MergedCursor) : Option PostingWrapper :=
  match it.inner with
  | .linear wrappers min_idx => wrappers[min_idx]?
  | .heap wrappers => heap.peek wrappers

/-- The wrappers with the one at `idx` moved on, or removed. -/
def advance_at (wrappers : List PostingWrapper) (idx : ℕ) :
    Option PostingWrapper → List PostingWrapper
  | some w => wrappers.set idx w
  | none => swapRemove wrappers idx

/-- `advance`: whether there is a document, and the iterator. -/
def advance (it : MergedCursor) : Option (Bool × MergedCursor) :=
  match it.inner with
  | .linear wrappers min_idx =>
    if wrappers.isEmpty then some (false, { it with current_doc := END })
    else
      wrappers[min_idx]?.map fun w =>
        let wrappers := advance_at wrappers min_idx (moved w.iter)
        -- an empty scan keeps the index it had, which is read no more
        if wrappers.isEmpty then
          (false, { it with inner := .linear wrappers min_idx, current_doc := END })
        else (true, linear_at wrappers it.started)
  | .heap wrappers =>
    match heap.pop wrappers with
    | none => some (false, { it with current_doc := END })
    | some (w, rest) =>
      let wrappers := (moved w.iter).toList ++ rest
      some ((heap.peek wrappers).isSome, heap_at heap wrappers it.started)

def doc_id (it : MergedCursor) : ℕ := it.current_doc

def term_freq (it : MergedCursor) : ℕ :=
  match it.current_wrapper heap with
  | some w => w.iter.term_freq
  | none => 0

def positions (it : MergedCursor) : Option (List ℕ) :=
  match it.current_wrapper heap with
  | some w => w.iter.positions
  | none => some []

/-- The wrappers. -/
def wrappers (it : MergedCursor) : List PostingWrapper :=
  match it.inner with
  | .linear wrappers _ => wrappers
  | .heap wrappers => wrappers

/-- `next`: the first call stays on the first document. -/
def next (it : MergedCursor) : Option (Bool × MergedCursor) :=
  if it.started then it.advance heap
  else some (!it.wrappers.isEmpty, { it with started := true })

/-- The loop of `skip_to`, of at most so many turns. -/
def skip_loop (target : ℕ) : ℕ → MergedCursor → Option (Bool × MergedCursor)
  | 0, _ => none
  | turns + 1, it =>
    if it.doc_id < target then do
      let (more, it) ← it.advance heap
      if more then skip_loop target turns it else return (false, it)
    else some (decide (it.doc_id ≠ END), it)

/-- `skip_to`: no loop takes more turns than there are postings. -/
def skip_to (it : MergedCursor) (target : ℕ) : Option (Bool × MergedCursor) :=
  skip_loop heap target ((it.wrappers.map fun w => w.iter.data.doc_ids.length).sum + 1)
    { it with started := true }

end MergedCursor

end Laurus
